import Survol.Uris.FileUrls

/-!
# The format of a moniker

A moniker is a list of keys and values separated by commas, where a value is bare or between
double quotes. One match of the regular expression reads exactly one key and its value,
whatever the quotes hold.

## Main definitions

* `PrintedValue` — a value as it is printed, bare or quoted.
* `MonikerItem` — a key and its value.
* `buildMonikerPath` — the moniker of a dictionary.
* `IsWord` — a text that one match reads, up to a comma.
-/

namespace Survol.Uris

open PyText (Text)

/-! ## Printing -/

/-- The text with a backslash before each double quote and each backslash. -/
def escaped (text : Text) : Text :=
  text.flatMap fun c => if c = '"' ∨ c = '\\' then ['\\', c] else [c]

/-- A value as it is printed in a moniker. -/
inductive PrintedValue where
  /-- The text itself. -/
  | bare (text : Text) (h : ∀ c ∈ text, c ≠ ',' ∧ c ≠ '"' ∧ c ≠ '\n')
  /-- The escaped text between double quotes. -/
  | quoted (text : Text) (h : '\n' ∉ text)

/-- The text of a value in a moniker. -/
def PrintedValue.print : PrintedValue → Text
  | .bare text _ => text
  | .quoted text _ => '"' :: (escaped text ++ ['"'])

/-- The text of a value without its outer quotes. -/
def PrintedValue.inner : PrintedValue → Text
  | .bare text _ => text
  | .quoted text _ => escaped text

/-- Whether a text is a key: letters, digits and underscores. -/
def IsKey (key : Text) : Prop := key ≠ [] ∧ key.all isKeyChar = true

instance (key : Text) : Decidable (IsKey key) := inferInstanceAs (Decidable (_ ∧ _))

/-- A key of a moniker, and its value. -/
structure MonikerItem where
  key : Text
  value : PrintedValue
  isKey : IsKey key

/-- The text of a key and its value. -/
def MonikerItem.print (i : MonikerItem) : Text := i.key ++ '=' :: i.value.print

/-- The text of a list of keys and values. -/
def printMoniker (l : List MonikerItem) : Text := join ",".toList (l.map MonikerItem.print)

/-- The moniker of a dictionary. -/
def buildMonikerPath (dictKeyVal : Dict Text Text) : Text :=
  join ",".toList (dictKeyVal.map fun p => p.1 ++ '=' :: p.2)

/-- A value that is printed without quotes. -/
def IsBare (value : Text) : Prop := ∀ c ∈ value, c ≠ ',' ∧ c ≠ '"' ∧ c ≠ '\n'

instance (value : Text) : Decidable (IsBare value) :=
  inferInstanceAs (Decidable (∀ c ∈ value, _))

/-! ## What one match reads -/

/-- A text that ends where a word does: at a comma, or at the end. -/
def EndsWord : Text → Prop
  | [] => True
  | c :: _ => c = ','

/-- A text that the repetitions read as a whole, and no more, up to a comma. -/
def IsWord (w : Text) : Prop :=
  ∀ n r, w.length ≤ n → EndsWord r → afterAtoms n (w ++ r) = r

theorem afterAtoms_of_endsWord (n : ℕ) {r : Text} (h : EndsWord r) : afterAtoms n r = r := by
  cases n with
  | zero => rfl
  | succ n =>
    match r, h with
    | [], _ => rfl
    | c :: s, h =>
      have hc : c = ',' := h
      subst hc
      rfl

theorem isWord_nil : IsWord [] := by
  intro n r _ hr
  exact afterAtoms_of_endsWord n hr

theorem isWord_cons {c : Char} (hq : c ≠ '"') (hc : c ≠ ',') {w : Text} (hw : IsWord w) :
    IsWord (c :: w) := by
  intro n r hn hr
  simp only [List.length_cons] at hn
  obtain ⟨n, rfl⟩ : ∃ m, n = m + 1 := ⟨n - 1, by omega⟩
  rw [List.cons_append, afterAtoms, afterAtom_cons hq hc]
  exact hw n r (by omega) hr

theorem isWord_append_of_plain {x : Text} (hx : ∀ c ∈ x, c ≠ '"' ∧ c ≠ ',') {w : Text}
    (hw : IsWord w) : IsWord (x ++ w) := by
  induction x with
  | nil => exact hw
  | cons c x ih =>
    obtain ⟨hq, hc⟩ := hx c List.mem_cons_self
    exact isWord_cons hq hc (ih fun d hd => hx d (List.mem_cons_of_mem c hd))

theorem isWord_of_plain {x : Text} (hx : ∀ c ∈ x, c ≠ '"' ∧ c ≠ ',') : IsWord x := by
  have := isWord_append_of_plain hx isWord_nil
  rwa [List.append_nil] at this

/-- The escapes of a text hide its double quotes from the search of the closing one. -/
theorem afterQuote_escaped {text : Text} (h : '\n' ∉ text) (s : Text) :
    afterQuote (escaped text ++ '"' :: s) = some s := by
  induction text with
  | nil => rfl
  | cons c text ih =>
    have hn : c ≠ '\n' := fun he => h (he ▸ List.mem_cons_self)
    have ih := ih fun hm => h (List.mem_cons_of_mem c hm)
    rw [escaped, List.flatMap_cons, ← escaped, List.append_assoc]
    split
    · simp only [List.cons_append, List.nil_append]
      rw [afterQuote, if_neg hn, ih]
      rfl
    · rename_i hc
      rw [List.singleton_append, afterQuote_cons (fun he => hc (Or.inl he))
        (fun he => hc (Or.inr he)), ih]

theorem isWord_quoted {text : Text} (h : '\n' ∉ text) :
    IsWord ('"' :: (escaped text ++ ['"'])) := by
  intro n r hn hr
  simp only [List.length_cons] at hn
  obtain ⟨n, rfl⟩ : ∃ m, n = m + 1 := ⟨n - 1, by omega⟩
  have hatom : afterAtom ('"' :: (escaped text ++ ['"']) ++ r) = some r := by
    have := afterQuote_escaped h r
    simpa [afterAtom] using this
  rw [afterAtoms, hatom]
  exact afterAtoms_of_endsWord n hr

theorem isWord_print (v : PrintedValue) : IsWord v.print := by
  cases v with
  | bare text h =>
    apply isWord_of_plain
    intro c hc
    exact ⟨(h c hc).2.1, (h c hc).1⟩
  | quoted text h => exact isWord_quoted h

theorem ne_of_isKey {key : Text} (h : IsKey key) {c d : Char} (hc : c ∈ key)
    (hd : isKeyChar d = false) : c ≠ d := by
  rintro rfl
  exact not_mem_of_all h.2 hd hc

/-- A key and its value are one word. -/
theorem isWord_item (i : MonikerItem) : IsWord i.print := by
  apply isWord_append_of_plain
  · intro c hc
    exact ⟨ne_of_isKey i.isKey hc (by decide), ne_of_isKey i.isKey hc (by decide)⟩
  · exact isWord_cons (by decide) (by decide) (isWord_print i.value)

theorem print_ne_nil (i : MonikerItem) : i.print ≠ [] := by
  simp [MonikerItem.print]

/-! ## The words of a moniker -/

theorem afterWord_append {w r : Text} (hw : IsWord w) (hr : EndsWord r) :
    afterWord (w ++ r) = r := by
  apply hw _ r _ hr
  simp

theorem findWords_append {n : ℕ} {w r : Text} (hw : IsWord w) (hne : w ≠ []) (hr : EndsWord r) :
    findWords (n + 1) (w ++ r) = w :: findWords n r := by
  match w, hne with
  | c :: w, _ =>
    have hafter := afterWord_append hw hr
    rw [List.cons_append] at hafter ⊢
    have hlt : r.length < (c :: (w ++ r)).length := by
      simp only [List.length_cons, List.length_append]
      omega
    have htake : (c :: (w ++ r)).length - r.length = (c :: w).length := by
      simp only [List.length_cons, List.length_append]
      omega
    rw [findWords]
    simp only [hafter, hlt, if_true, htake]
    rw [← List.cons_append, List.take_left]

/-- The search goes on after a comma. -/
theorem findWords_comma {n : ℕ} (s : Text) : findWords (n + 1) (',' :: s) = findWords n s := by
  have hafter : afterWord (',' :: s) = ',' :: s := afterAtoms_of_endsWord _ rfl
  rw [findWords]
  simp [hafter]

/-- **The words are found again**: joining them with commas does not change them. -/
theorem findWords_join {ws : List Text} (hw : ∀ w ∈ ws, IsWord w ∧ w ≠ []) {n : ℕ}
    (hn : (join ",".toList ws).length < n) : findWords n (join ",".toList ws) = ws := by
  induction ws generalizing n with
  | nil =>
    obtain ⟨n, rfl⟩ : ∃ m, n = m + 1 := ⟨n - 1, by simp [join] at hn; omega⟩
    rfl
  | cons w ws ih =>
    obtain ⟨hword, hne⟩ := hw w List.mem_cons_self
    have hpos : 0 < w.length := List.length_pos_iff.mpr hne
    have hws : ∀ w' ∈ ws, IsWord w' ∧ w' ≠ [] := fun w' hm => hw w' (List.mem_cons_of_mem w hm)
    match ws, ih, hws with
    | [], _, _ =>
      obtain ⟨n, rfl⟩ : ∃ m, n = m + 2 := ⟨n - 2, by simp [join] at hn; omega⟩
      have := findWords_append (n := n + 1) hword hne (r := []) trivial
      rw [List.append_nil] at this
      exact this
    | w' :: ws, ih, hws =>
      have hjoin : join ",".toList (w :: w' :: ws) =
          w ++ ',' :: join ",".toList (w' :: ws) := by
        simp [join]
      rw [hjoin] at hn ⊢
      simp only [List.length_append, List.length_cons] at hn
      obtain ⟨n, rfl⟩ : ∃ m, n = m + 2 := ⟨n - 2, by omega⟩
      have hend : EndsWord (',' :: join ",".toList (w' :: ws)) := rfl
      rw [findWords_append hword hne hend, findWords_comma, ih hws (by omega)]

/-! ## The key and the value of a word -/

theorem firstLine_append_of_not_mem {x : Text} (h : '\n' ∉ x) (y : Text) :
    firstLine (x ++ y) = x ++ firstLine y := by
  exact List.takeWhile_append_of_pos (forall_ne_of_not_mem h)

theorem not_mem_escaped {text : Text} (h : '\n' ∉ text) : '\n' ∉ escaped text := by
  intro hm
  obtain ⟨c, hc, hd⟩ := List.mem_flatMap.mp hm
  split at hd
  · simp only [List.mem_cons, List.not_mem_nil, or_false] at hd
    obtain hd | hd := hd
    · cases hd
    · exact h (hd ▸ hc)
  · exact h (List.mem_singleton.mp hd ▸ hc)

theorem beforeLastQuote_append {x : Text} (h : '\n' ∉ x) :
    beforeLastQuote (x ++ ['"']) = some x := by
  have hline : firstLine (x ++ ['"']) = x ++ ['"'] := firstLine_append_of_not_mem h _
  rw [beforeLastQuote, hline, List.reverse_append]
  simp

/-- The value of a word is what is printed without the outer quotes. -/
theorem valueOf_print (v : PrintedValue) : valueOf v.print = v.inner := by
  cases v with
  | bare text h =>
    apply valueOf_eq_self
    · intro hm
      exact (h '\n' hm).2.2 rfl
    · intro hhead
      exact (h '"' (List.mem_of_mem_head? hhead)).2.1 rfl
  | quoted text h =>
    change (beforeLastQuote (escaped text ++ ['"'])).getD _ = escaped text
    rw [beforeLastQuote_append (not_mem_escaped h)]
    rfl

theorem keyValue?_append {key : Text} (h : IsKey key) (s : Text) :
    keyValue? (key ++ '=' :: s) = some (key, valueOf s) := by
  have hkey : ∀ c ∈ key, isKeyChar c = true := List.all_eq_true.mp h.2
  rw [keyValue?, takeWhile_append_cons hkey (by decide), dropWhile_append_cons hkey (by decide)]
  obtain ⟨c, key, rfl⟩ := List.exists_cons_of_ne_nil h.1
  rfl

theorem keyValue?_print (i : MonikerItem) : keyValue? i.print = some (i.key, i.value.inner) := by
  rw [MonikerItem.print, keyValue?_append i.isKey, valueOf_print]

/-! ## The dictionary of a moniker -/

theorem foldl_addWord (l : List MonikerItem) (d : Dict Text Text)
    (h : (Dict.keys d ++ l.map MonikerItem.key).Nodup) :
    (l.map MonikerItem.print).foldl addWord d =
      d ++ l.map fun i => (i.key, i.value.inner) := by
  induction l generalizing d with
  | nil => simp
  | cons i l ih =>
    have hnot : i.key ∉ Dict.keys d := by
      intro hm
      rw [List.nodup_append] at h
      exact h.2.2 i.key hm i.key List.mem_cons_self rfl
    have hset : addWord d i.print = d ++ [(i.key, i.value.inner)] := by
      simp only [addWord, keyValue?_print]
      exact Dict.set_of_get?_eq_none ((Dict.get?_eq_none_iff d i.key).mpr hnot) _
    rw [List.map_cons, List.foldl_cons, hset, ih]
    · simp
    · simpa [Dict.keys] using h

/-- **A moniker is split into the keys and the values it was printed from.** -/
theorem splitMoniker_printMoniker_eq {l : List MonikerItem} (h : (l.map MonikerItem.key).Nodup) :
    splitMoniker (printMoniker l) = l.map fun i => (i.key, i.value.inner) := by
  have hwords : ∀ w ∈ l.map MonikerItem.print, IsWord w ∧ w ≠ [] := by
    intro w hw
    obtain ⟨i, -, rfl⟩ := List.mem_map.mp hw
    exact ⟨isWord_item i, print_ne_nil i⟩
  rw [splitMoniker, printMoniker, findWords_join hwords (Nat.lt_succ_self _), foldl_addWord]
  · rfl
  · simpa [Dict.keys] using h

/-- **Splitting undoes building**, for the values that are printed without quotes. -/
theorem splitMoniker_buildMonikerPath_eq {d : Dict Text Text} (h : (Dict.keys d).Nodup)
    (hd : ∀ p ∈ d, IsKey p.1 ∧ IsBare p.2) : splitMoniker (buildMonikerPath d) = d := by
  let toItem : { p // p ∈ d } → MonikerItem := fun p =>
    ⟨p.1.1, .bare p.1.2 (hd p.1 p.2).2, (hd p.1 p.2).1⟩
  have hprint : buildMonikerPath d = printMoniker (d.attach.map toItem) := by
    rw [buildMonikerPath, printMoniker, List.map_map]
    conv_lhs => rw [← List.attach_map_subtype_val d, List.map_map]
    rfl
  have hkeys : ((d.attach.map toItem).map MonikerItem.key) = Dict.keys d := by
    rw [List.map_map, Dict.keys]
    conv_rhs => rw [← List.attach_map_subtype_val d, List.map_map]
    rfl
  rw [hprint, splitMoniker_printMoniker_eq (hkeys ▸ h), List.map_map]
  conv_rhs => rw [← List.attach_map_subtype_val d]
  rfl

/-- **The whole format of monikers is parsed**: the keys, with the bare values and what is
between the quotes of the others; hence splitting undoes building. -/
theorem splitMoniker_format :
    (∀ l : List MonikerItem, (l.map MonikerItem.key).Nodup →
      splitMoniker (printMoniker l) = l.map fun i => (i.key, i.value.inner)) ∧
    (∀ d : Dict Text Text, (Dict.keys d).Nodup → (∀ p ∈ d, IsKey p.1 ∧ IsBare p.2) →
      splitMoniker (buildMonikerPath d) = d) := by
  constructor
  · intro l h
    exact splitMoniker_printMoniker_eq h
  · intro d h hd
    exact splitMoniker_buildMonikerPath_eq h hd

/-- A quoted value with a comma and a double quote, then an empty one. -/
theorem splitMoniker_format_two :
    splitMoniker "Id=\"a,\\\"=b\\\\\",Key=".toList =
        [("Id".toList, "a,\\\"=b\\\\".toList), ("Key".toList, [])] ∧
      splitMoniker (buildMonikerPath [("Name".toList, "a=\\".toList), ("Id".toList, [])]) =
        [("Name".toList, "a=\\".toList), ("Id".toList, [])] :=
  ⟨splitMoniker_format.1
      [⟨"Id".toList, .quoted "a,\"=b\\".toList (by decide), by decide⟩,
        ⟨"Key".toList, .bare [] (by decide), by decide⟩] (by decide),
    splitMoniker_format.2 _ (by decide) (by decide)⟩

end Survol.Uris
