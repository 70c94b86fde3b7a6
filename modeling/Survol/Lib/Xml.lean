import Survol.Lib.Text

/-!
# XML texts

A small XML reader, for elements with attributes and text, and what it makes of a text in which
values were written as they are. The reader resolves references, and normalises line ends and the
white space of attributes; it knows neither comments nor sections nor declarations of types.

## Main definitions

* `decode` — the value of a text or of an attribute.
* `Event`, `tokenize`, `nesting`, `parse` — the reader.
* `Piece`, `render`, `events` — what a writer writes, and what should be read.

## Main results

* `decode_self_iff` — the values that are read as they are written.
* `tokenize_render_iff` — a written text is read back exactly when its values are such.
-/

open PyText

namespace Xml

/-! ## Values -/

/-- The characters of an XML text. -/
def isXmlChar (c : Char) : Bool :=
  c = '\t' || c = '\n' || c = '\r' || (32 ≤ c.toNat && c.toNat ≠ 0xFFFE && c.toNat ≠ 0xFFFF)

/-- The character that a reference stands for. -/
def reference? (name : Text) : Option Char :=
  match name with
  | '#' :: 'x' :: digits => ((nat? 16 digits).map Char.ofNat).filter isXmlChar
  | '#' :: digits => ((nat? 10 digits).map Char.ofNat).filter isXmlChar
  | _ =>
    if name = "lt".toList then some '<' else if name = "gt".toList then some '>'
    else if name = "amp".toList then some '&' else if name = "apos".toList then some '\''
    else if name = "quot".toList then some '"' else none

/-- The end of a section, which may not stand in a text. -/
def sectionEnd : Text := "]]>".toList

/-- The character that `c` is read as, before the text `s`. -/
def charValue? (inAttribute : Bool) (c : Char) (s : Text) : Option Char :=
  if c = '<' || !isXmlChar c || (!inAttribute && sectionEnd.isPrefixOf (c :: s)) then none
  else if c = '\r' || c = '\n' || c = '\t' then
    some (if inAttribute then ' ' else if c = '\t' then '\t' else '\n')
  else some c

/-- The value of a text, where `pending` is the name of a reference that is being read. -/
def decode (inAttribute : Bool) : Option Text → Text → Option Text
  | pending, [] => if pending = none then some [] else none
  | some name, c :: s =>
    if c = ';' then
      (reference? name).bind fun d => (decode inAttribute none s).map (d :: ·)
    else decode inAttribute (some (name ++ [c])) s
  | none, c :: s =>
    if c = '&' then decode inAttribute (some []) s
    else if c = '\r' ∧ s.head? = some '\n' then decode inAttribute none s
    else (charValue? inAttribute c s).bind fun d => (decode inAttribute none s).map (d :: ·)

/-- A character that is read as it is written. -/
def CleanChar (inAttribute : Bool) (c : Char) : Prop :=
  isXmlChar c = true ∧ c ≠ '<' ∧ c ≠ '&' ∧ c ≠ '\r' ∧
    (inAttribute = true → c ≠ '\n' ∧ c ≠ '\t')

/-- The value of a text that is read as it is written. -/
def CleanText (s : Text) : Prop := (∀ c ∈ s, CleanChar false c) ∧ ¬ sectionEnd <:+: s

/-- The value of an attribute, between apostrophes, that is read as it is written. -/
def CleanAttribute (s : Text) : Prop := (∀ c ∈ s, CleanChar true c) ∧ '\'' ∉ s

instance (inAttribute : Bool) (c : Char) : Decidable (CleanChar inAttribute c) :=
  inferInstanceAs (Decidable (_ ∧ _))

instance (s : Text) : Decidable (CleanText s) := inferInstanceAs (Decidable (_ ∧ _))

instance (s : Text) : Decidable (CleanAttribute s) := inferInstanceAs (Decidable (_ ∧ _))

/-- A value is never longer than its text. -/
theorem length_le_of_decode {inAttribute : Bool} {pending : Option Text} {s t : Text}
    (h : decode inAttribute pending s = some t) : t.length ≤ s.length := by
  induction s generalizing pending t with
  | nil =>
    rw [decode] at h
    split at h
    · cases h
      exact le_rfl
    · cases h
  | cons c s ih =>
    have hmap : ∀ {d : Char}, (decode inAttribute none s).map (d :: ·) = some t →
        t.length ≤ s.length + 1 := by
      intro d hd
      obtain ⟨u, hu, rfl⟩ := Option.map_eq_some_iff.mp hd
      exact Nat.succ_le_succ (ih hu)
    rw [List.length_cons]
    cases pending with
    | some name =>
      rw [decode] at h
      split at h
      · obtain ⟨d, -, hd⟩ := Option.bind_eq_some_iff.mp h
        exact hmap hd
      · exact (ih h).trans (Nat.le_succ _)
    | none =>
      rw [decode] at h
      split at h
      · exact (ih h).trans (Nat.le_succ _)
      · split at h
        · exact (ih h).trans (Nat.le_succ _)
        · obtain ⟨d, -, hd⟩ := Option.bind_eq_some_iff.mp h
          exact hmap hd

/-- A character stands for itself. -/
theorem charValue?_self_iff {inAttribute : Bool} {c : Char} {s : Text} (hamp : c ≠ '&') :
    charValue? inAttribute c s = some c ↔
      CleanChar inAttribute c ∧ (inAttribute = false → ¬ sectionEnd <+: c :: s) := by
  rw [charValue?, CleanChar, ← List.isPrefixOf_iff_prefix]
  by_cases hr : c = '\r'
  · subst hr
    cases inAttribute <;> simp
  · by_cases hn : c = '\n'
    · subst hn
      cases inAttribute <;> simp [isXmlChar]
    · by_cases ht : c = '\t'
      · subst ht
        cases inAttribute <;> simp [isXmlChar]
      · cases inAttribute <;> simp [hr, hn, ht, hamp] <;> tauto

/-- **The values that are read as they are written.** -/
theorem decode_self_iff (inAttribute : Bool) (s : Text) :
    decode inAttribute none s = some s ↔
      (∀ c ∈ s, CleanChar inAttribute c) ∧ (inAttribute = false → ¬ sectionEnd <:+: s) := by
  induction s with
  | nil => simp [decode, sectionEnd]
  | cons c s ih =>
    rw [decode, List.forall_mem_cons, List.infix_cons_iff]
    by_cases hamp : c = '&'
    · rw [if_pos hamp]
      refine iff_of_false (fun h => ?_) fun h => h.1.1.2.2.1 hamp
      have hlen := length_le_of_decode h
      rw [List.length_cons] at hlen
      omega
    · rw [if_neg hamp]
      by_cases hr : c = '\r' ∧ s.head? = some '\n'
      · rw [if_pos hr]
        refine iff_of_false (fun h => ?_) fun h => h.1.1.2.2.2.1 hr.1
        have hlen := length_le_of_decode h
        rw [List.length_cons] at hlen
        omega
      · rw [if_neg hr]
        have hbind : (charValue? inAttribute c s).bind
            (fun d => (decode inAttribute none s).map (d :: ·)) = some (c :: s) ↔
            charValue? inAttribute c s = some c ∧ decode inAttribute none s = some s := by
          cases charValue? inAttribute c s with
          | none => simp
          | some d =>
            cases decode inAttribute none s with
            | none => simp
            | some t => simp
        rw [hbind, charValue?_self_iff hamp, ih]
        tauto

theorem decode_text_iff (s : Text) : decode false none s = some s ↔ CleanText s := by
  rw [decode_self_iff, CleanText]
  simp

theorem decode_attribute_iff (s : Text) :
    decode true none s = some s ∧ '\'' ∉ s ↔ CleanAttribute s := by
  rw [decode_self_iff, CleanAttribute]
  simp

/-! ## The reader -/

/-- What a reader reports: the start of an element with its attributes, its end, or a text. -/
inductive Event
  | opened (name : Text) (attrs : List (Text × Text))
  | closed (name : Text)
  | text (s : Text)
  deriving DecidableEq

/-- The characters that a name starts with. -/
def isNameStart (c : Char) : Bool := c.isAlpha || c = '_' || c = ':'

/-- The characters of a name. -/
def isNameChar (c : Char) : Bool := isNameStart c || c.isDigit || c = '-' || c = '.'

/-- A name. -/
def ValidName (name : Text) : Prop :=
  (∃ c s, name = c :: s ∧ isNameStart c = true) ∧ ∀ c ∈ name, isNameChar c = true

instance (name : Text) : Decidable (ValidName name) :=
  decidable_of_iff ((name.head?.map isNameStart).getD false = true ∧
    ∀ c ∈ name, isNameChar c = true) (by cases name <;> simp [ValidName])

/-- White space. -/
def isSpace (c : Char) : Bool := c = ' ' || c = '\t' || c = '\n' || c = '\r'

/-- The text after its white space. -/
def skipSpaces (s : Text) : Text := s.dropWhile isSpace

/-- The name at the start of a text, and the rest. -/
def splitName (s : Text) : Option (Text × Text) :=
  if (s.head?.map isNameStart).getD false then
    some (s.takeWhile isNameChar, s.dropWhile isNameChar)
  else none

/-- The value between quotes at the start of a text, and the rest. -/
def quoted? (s : Text) : Option (Text × Text) :=
  match s with
  | q :: s =>
    if q = '\'' || q = '"' then
      match s.dropWhile (· ≠ q) with
      | _ :: rest => (decode true none (s.takeWhile (· ≠ q))).map (·, rest)
      | [] => none
    else none
  | [] => none

/-- The attribute at the start of a text, and the rest. -/
def attribute? (s : Text) : Option ((Text × Text) × Text) :=
  (splitName s).bind fun (name, s) =>
    match skipSpaces s with
    | '=' :: s => (quoted? (skipSpaces s)).map fun (value, rest) => ((name, value), rest)
    | _ => none

/-- The attributes up to the end of a tag, each after white space, and the rest. -/
def attributes : ℕ → Text → Option (List (Text × Text) × Text)
  | 0, _ => none
  | n + 1, s =>
    if ((skipSpaces s).head?.map isNameStart).getD false then
      if (skipSpaces s).length = s.length then none
      else (attribute? (skipSpaces s)).bind fun (a, rest) =>
        (attributes n rest).map fun (l, rest) => (a :: l, rest)
    else some ([], skipSpaces s)

/-- What a start tag gives by its end, and the rest. -/
def tagEnd (name : Text) (attrs : List (Text × Text)) : Text → Option (List Event × Text)
  | '>' :: rest => some ([.opened name attrs], rest)
  | '/' :: '>' :: rest => some ([.opened name attrs, .closed name], rest)
  | _ => none

/-- The tag at the start of a text, after the angle bracket, and the rest. -/
def tag? (s : Text) : Option (List Event × Text) :=
  match s with
  | '/' :: s => (splitName s).bind fun (name, s) =>
    match skipSpaces s with
    | '>' :: rest => some ([.closed name], rest)
    | _ => none
  | s => (splitName s).bind fun (name, s) =>
    (attributes (s.length + 1) s).bind fun (attrs, s) =>
      if (attrs.map Prod.fst).Nodup then tagEnd name attrs s else none

/-- The events of a text, in at most as many steps as its length. -/
def tokenize : ℕ → Text → Option (List Event)
  | _, [] => some []
  | 0, _ => none
  | n + 1, c :: s =>
    if c = '<' then (tag? s).bind fun (es, rest) => (tokenize n rest).map (es ++ ·)
    else (decode false none ((c :: s).takeWhile (· ≠ '<'))).bind fun t =>
      (tokenize n ((c :: s).dropWhile (· ≠ '<'))).map (.text t :: ·)

/-- The tags are balanced and properly nested, in one element, with white space around it. The
elements that are open are `stack`, and `root` tells whether the element has started. -/
def nesting : Bool → List Text → List Event → Bool
  | root, stack, [] => root && stack.isEmpty
  | root, stack, .text s :: es => (!stack.isEmpty || s.all isSpace) && nesting root stack es
  | root, stack, .opened name _ :: es =>
    (!stack.isEmpty || !root) && nesting true (name :: stack) es
  | root, stack, .closed name :: es =>
    match stack with
    | [] => false
    | n :: stack => n = name && nesting root stack es

/-- The start of a declaration. -/
def declarationStart : Text := "<?xml ".toList

/-- The text after its declaration, if there is one. -/
def afterDeclaration (s : Text) : Text :=
  if declarationStart.isPrefixOf s then
    match findIdx "?>".toList s with
    | some i => s.drop (i + 2)
    | none => s
  else s

/-- The events of a well-formed document. -/
def parse (s : Text) : Option (List Event) :=
  (tokenize (afterDeclaration s).length (afterDeclaration s)).filter (nesting false [])

/-! ## The writer -/

/-- What a writer writes: white space, a tag with spaces before its end, or an element that only
has a text. -/
inductive Piece
  | blank (s : Text)
  | opening (name : Text) (attrs : List (Text × Text)) (pad : Text)
  | closing (name : Text)
  | empty (name : Text) (attrs : List (Text × Text)) (pad : Text)
  | leaf (name value : Text)

/-- The text of attributes, whose values are written as they are. -/
def attrsText (attrs : List (Text × Text)) : Text :=
  attrs.flatMap fun a => ' ' :: a.1 ++ '=' :: '\'' :: a.2 ++ ['\'']

/-- The text of a piece. -/
def Piece.render : Piece → Text
  | blank s => s
  | opening name attrs pad => '<' :: name ++ attrsText attrs ++ pad ++ ['>']
  | closing name => '<' :: '/' :: name ++ ['>']
  | empty name attrs pad => '<' :: name ++ attrsText attrs ++ pad ++ ['/', '>']
  | leaf name value => '<' :: name ++ '>' :: value ++ '<' :: '/' :: name ++ ['>']

/-- The text of pieces. -/
def render (ps : List Piece) : Text := ps.flatMap Piece.render

/-- The event of a text, if it is not empty. -/
def textEvent (s : Text) : List Event := if s = [] then [] else [.text s]

/-- What should be read, where the white space `t` comes first. -/
def events : Text → List Piece → List Event
  | t, [] => textEvent t
  | t, .blank s :: ps => events (t ++ s) ps
  | t, .opening name attrs _ :: ps => textEvent t ++ .opened name attrs :: events [] ps
  | t, .closing name :: ps => textEvent t ++ .closed name :: events [] ps
  | t, .empty name attrs _ :: ps =>
    textEvent t ++ .opened name attrs :: .closed name :: events [] ps
  | t, .leaf name value :: ps =>
    textEvent t ++ .opened name [] :: (textEvent value ++ .closed name :: events [] ps)

/-- Names of elements and attributes are names, an attribute comes once, and white space is
white. -/
def Piece.Valid : Piece → Prop
  | blank s => ∀ c ∈ s, c = ' ' ∨ c = '\n'
  | opening name attrs pad => ValidName name ∧ (∀ a ∈ attrs, ValidName a.1) ∧
      (attrs.map Prod.fst).Nodup ∧ ∀ c ∈ pad, c = ' '
  | closing name => ValidName name
  | empty name attrs pad => ValidName name ∧ (∀ a ∈ attrs, ValidName a.1) ∧
      (attrs.map Prod.fst).Nodup ∧ ∀ c ∈ pad, c = ' '
  | leaf name _ => ValidName name

/-- The values of a piece are read as they are written. -/
def Piece.Clean : Piece → Prop
  | opening _ attrs _ => ∀ a ∈ attrs, CleanAttribute a.2
  | empty _ attrs _ => ∀ a ∈ attrs, CleanAttribute a.2
  | leaf _ value => CleanText value
  | _ => True

/-! ## Reading a tag -/

section
variable {p : Char → Bool} {a r : Text} {c : Char}

theorem takeWhile_append_cons (h : ∀ d ∈ a, p d = true) (hc : p c = false) :
    (a ++ c :: r).takeWhile p = a ∧ (a ++ c :: r).dropWhile p = c :: r := by
  rw [List.takeWhile_append_of_pos h, List.dropWhile_append_of_pos h]
  simp [hc]

theorem skipSpaces_append (h : ∀ d ∈ a, d = ' ') (hc : isSpace c = false) :
    skipSpaces (a ++ c :: r) = c :: r := by
  refine (takeWhile_append_cons (fun d hd => ?_) hc).2
  rw [h d hd]
  rfl

theorem skipSpaces_of_head (hc : isSpace c = false) : skipSpaces (c :: r) = c :: r := by
  simp [skipSpaces, hc]

theorem isSpace_of_isNameStart (h : isNameStart c = true) : isSpace c = false := by
  rw [← Bool.not_eq_true]
  intro hspace
  simp only [isSpace, Bool.or_eq_true, decide_eq_true_eq] at hspace
  rcases hspace with ((rfl | rfl) | rfl) | rfl <;> exact absurd h (by decide)

/-- A name is read up to the next character that is not in a name. -/
theorem splitName_append {name : Text} (h : ValidName name) (hc : isNameChar c = false) :
    splitName (name ++ c :: r) = some (name, c :: r) := by
  obtain ⟨⟨d, s, rfl, hd⟩, hall⟩ := h
  obtain ⟨htake, hdrop⟩ := takeWhile_append_cons (r := r) hall hc
  rw [splitName, htake, hdrop, if_pos]
  simp [hd]

end

/-- The value of an attribute is read back exactly when it is clean. -/
theorem quoted?_eq_iff {v r rest : Text} :
    quoted? ('\'' :: (v ++ '\'' :: rest)) = some (v, r) ↔ CleanAttribute v ∧ r = rest := by
  rw [← decode_attribute_iff]
  have hquote : quoted? ('\'' :: (v ++ '\'' :: rest)) =
      match (v ++ '\'' :: rest).dropWhile (· ≠ '\'') with
      | _ :: rest' => (decode true none ((v ++ '\'' :: rest).takeWhile (· ≠ '\''))).map (·, rest')
      | [] => none := rfl
  rw [hquote]
  by_cases hv : '\'' ∈ v
  · refine iff_of_false (fun h => ?_) fun h => h.1.2 hv
    obtain ⟨a, b, rfl, ha⟩ := List.eq_append_cons_of_mem hv
    have hall : ∀ d ∈ a, (fun x => decide (x ≠ '\'')) d = true := by
      intro d hd
      simp only [ne_eq, decide_eq_true_eq]
      rintro rfl
      exact ha hd
    obtain ⟨htake, hdrop⟩ :=
      takeWhile_append_cons (c := '\'') (r := b ++ '\'' :: rest) hall (by simp)
    rw [List.append_assoc, List.cons_append, htake, hdrop] at h
    obtain ⟨w, hw, heq⟩ := Option.map_eq_some_iff.mp h
    have hlen := length_le_of_decode hw
    rw [(Prod.mk.inj heq).1] at hlen
    simp only [List.length_append, List.length_cons] at hlen
    omega
  · have hall : ∀ d ∈ v, (fun x => decide (x ≠ '\'')) d = true := by
      intro d hd
      simp only [ne_eq, decide_eq_true_eq]
      rintro rfl
      exact hv hd
    obtain ⟨htake, hdrop⟩ := takeWhile_append_cons (c := '\'') (r := rest) hall (by simp)
    rw [htake, hdrop]
    cases decode true none v with
    | none => simp
    | some w => simp [hv, eq_comm]

theorem attribute?_eq {name v rest : Text} (h : ValidName name) :
    attribute? (name ++ '=' :: '\'' :: (v ++ '\'' :: rest)) =
      (quoted? ('\'' :: (v ++ '\'' :: rest))).map fun x => ((name, x.1), x.2) := by
  rw [attribute?, splitName_append h (by decide), Option.bind_some]
  simp only [skipSpaces_of_head (c := '=') (by decide), skipSpaces_of_head (c := '\'') (by decide)]

/-- The end of a tag. -/
def IsTagEnd (e : Text) : Prop := ∃ rest, e = '>' :: rest ∨ e = '/' :: rest

theorem attrsText_cons (a : Text × Text) (l : List (Text × Text)) (e : Text) :
    attrsText (a :: l) ++ e =
      ' ' :: (a.1 ++ '=' :: '\'' :: (a.2 ++ '\'' :: (attrsText l ++ e))) := by
  simp [attrsText]

theorem length_le_attrsText (l : List (Text × Text)) : l.length ≤ (attrsText l).length := by
  induction l with
  | nil => exact Nat.zero_le _
  | cons a l ih =>
    have h := congrArg List.length (attrsText_cons a l [])
    simp only [List.append_nil, List.length_cons, List.length_append] at h ⊢
    omega

/-- **The attributes of a tag are read back exactly when their values are clean.** -/
theorem attributes_eq_iff {l : List (Text × Text)} {pad e r : Text} {n : ℕ}
    (hvalid : ∀ a ∈ l, ValidName a.1) (hpad : ∀ c ∈ pad, c = ' ') (he : IsTagEnd e)
    (hn : l.length < n) :
    attributes n (attrsText l ++ (pad ++ e)) = some (l, r) ↔
      (∀ a ∈ l, CleanAttribute a.2) ∧ r = e := by
  induction l generalizing n with
  | nil =>
    obtain ⟨n, rfl⟩ : ∃ m, n = m + 1 := ⟨n - 1, by omega⟩
    have hskip : skipSpaces (attrsText [] ++ (pad ++ e)) = e ∧
        (e.head?.map isNameStart).getD false =
        false := by
      obtain ⟨rest, rfl | rfl⟩ := he
      · exact ⟨skipSpaces_append hpad (by decide), rfl⟩
      · exact ⟨skipSpaces_append hpad (by decide), rfl⟩
    rw [attributes, hskip.1, hskip.2]
    simp [eq_comm]
  | cons a l ih =>
    obtain ⟨n, rfl⟩ : ∃ m, n = m + 1 := ⟨n - 1, by omega⟩
    obtain ⟨⟨c, s, hname, hc⟩, hall⟩ := hvalid a List.mem_cons_self
    rw [attrsText_cons]
    have hskip : ∀ u, skipSpaces (' ' :: (a.1 ++ u)) = a.1 ++ u := by
      intro u
      rw [hname]
      exact @skipSpaces_append [' '] (s ++ u) c (by simp) (isSpace_of_isNameStart hc)
    have hhead : ∀ u, ((a.1 ++ u).head?.map isNameStart).getD false = true := by
      intro u
      simp [hname, hc]
    have hlt : ∀ u : Text, ¬ (a.1 ++ u).length = (' ' :: (a.1 ++ u)).length := by
      intro u
      simp
    rw [attributes, hskip, if_pos (hhead _), if_neg (hlt _),
      attribute?_eq (hvalid a List.mem_cons_self), List.forall_mem_cons]
    have ih := @ih n (fun b hb => hvalid b (List.mem_cons_of_mem a hb)) (Nat.lt_of_succ_lt_succ hn)
    constructor
    · intro h
      obtain ⟨x, hx, h⟩ := Option.bind_eq_some_iff.mp h
      obtain ⟨⟨v, r'⟩, hq, rfl⟩ := Option.map_eq_some_iff.mp hx
      obtain ⟨⟨l', r''⟩, hl, heq⟩ := Option.map_eq_some_iff.mp h
      simp only [Prod.mk.injEq, List.cons.injEq] at heq
      obtain ⟨⟨hv, rfl⟩, rfl⟩ := heq
      have hv : v = a.2 := congrArg Prod.snd hv
      subst hv
      obtain ⟨hclean, rfl⟩ := quoted?_eq_iff.mp hq
      obtain ⟨hl, hr⟩ := ih.mp hl
      exact ⟨⟨hclean, hl⟩, hr⟩
    · rintro ⟨⟨ha, hl⟩, rfl⟩
      rw [quoted?_eq_iff.mpr ⟨ha, rfl⟩]
      simp only [Option.map_some, Option.bind_some, ih.mpr ⟨hl, rfl⟩]

/-! ## Reading a text -/

section
variable {name rest : Text} {n : ℕ} {l : List Event}

theorem tokenize_closing (h : ValidName name) :
    tokenize (n + 1) ('<' :: '/' :: (name ++ '>' :: rest)) =
      (tokenize n rest).map (.closed name :: ·) := by
  rw [tokenize, if_pos rfl, tag?, splitName_append h (by decide)]
  simp only [Option.bind_some, skipSpaces_of_head (c := '>') (by decide)]
  rfl

theorem tokenize_closing_iff (h : ValidName name) :
    tokenize (n + 1) ('<' :: '/' :: (name ++ '>' :: rest)) = some (.closed name :: l) ↔
      tokenize n rest = some l := by
  rw [tokenize_closing h]
  cases tokenize n rest <;> simp

/-- A tag with attributes is split after its name. -/
theorem tag?_append {u : Text} {c : Char} (h : ValidName name) (hc : isNameChar c = false) :
    tag? (name ++ c :: u) = (attributes ((c :: u).length + 1) (c :: u)).bind fun x =>
      if (x.1.map Prod.fst).Nodup then tagEnd name x.1 x.2 else none := by
  have hsplit := splitName_append (r := u) h hc
  obtain ⟨⟨d, s, rfl, hd⟩, hall⟩ := h
  have hd' : d ≠ '/' := by
    rintro rfl
    exact absurd hd (by decide)
  rw [List.cons_append] at hsplit ⊢
  rw [tag?]
  · rw [hsplit, Option.bind_some]
  · intro s' heq
    exact hd' (List.cons.inj heq).1

/-- The characters after a name in a tag. -/
theorem exists_head_attrsText {attrs : List (Text × Text)} {pad e : Text}
    (hpad : ∀ c ∈ pad, c = ' ') (he : IsTagEnd e) :
    ∃ c u, attrsText attrs ++ (pad ++ e) = c :: u ∧ isNameChar c = false := by
  cases attrs with
  | cons a attrs => exact ⟨' ', _, attrsText_cons a attrs (pad ++ e), by decide⟩
  | nil =>
    cases pad with
    | cons c pad =>
      obtain rfl := hpad c List.mem_cons_self
      exact ⟨' ', _, rfl, by decide⟩
    | nil =>
      obtain ⟨rest, rfl | rfl⟩ := he
      · exact ⟨'>', rest, rfl, by decide⟩
      · exact ⟨'/', rest, rfl, by decide⟩

/-- What a tag gives when its attributes are the expected ones. -/
theorem tag?_eq_some {attrs : List (Text × Text)} {pad e r : Text} {es l' : List Event}
    (h : ValidName name) (hvalid : ∀ a ∈ attrs, ValidName a.1) (hpad : ∀ c ∈ pad, c = ' ')
    (he : IsTagEnd e) (htag : tag? (name ++ (attrsText attrs ++ (pad ++ e))) = some (es, r))
    (hes : es ++ l' = .opened name attrs :: l) :
    (∀ a ∈ attrs, CleanAttribute a.2) ∧
      (e = '>' :: r ∧ es = [.opened name attrs] ∨
        e = '/' :: '>' :: r ∧ es = [.opened name attrs, .closed name]) := by
  obtain ⟨c, u, hcu, hc⟩ := @exists_head_attrsText attrs pad e hpad he
  rw [hcu, tag?_append h hc, ← hcu] at htag
  obtain ⟨⟨attrs', s⟩, hattrs, htag⟩ := Option.bind_eq_some_iff.mp htag
  have hfirst : (∃ t, es = .opened name attrs' :: t) ∧
      (s = '>' :: r ∧ es = [.opened name attrs'] ∨
        s = '/' :: '>' :: r ∧ es = [.opened name attrs', .closed name]) := by
    split at htag
    · unfold tagEnd at htag
      split at htag
      · rename_i rest hs
        cases htag
        exact ⟨⟨[], rfl⟩, .inl ⟨hs, rfl⟩⟩
      · rename_i rest hs
        cases htag
        exact ⟨⟨_, rfl⟩, .inr ⟨hs, rfl⟩⟩
      · cases htag
    · cases htag
  obtain ⟨⟨t, rfl⟩, hends⟩ := hfirst
  rw [List.cons_append, List.cons.injEq, Event.opened.injEq] at hes
  obtain ⟨⟨-, rfl⟩, -⟩ := hes
  have hlen : attrs'.length < (attrsText attrs' ++ (pad ++ e)).length + 1 := by
    have := length_le_attrsText attrs'
    rw [List.length_append]
    omega
  obtain ⟨hclean, rfl⟩ := (attributes_eq_iff hvalid hpad he hlen).mp hattrs
  exact ⟨hclean, hends⟩

/-- A tag whose values are clean. -/
theorem tag?_of_clean {attrs : List (Text × Text)} {pad e : Text} (h : ValidName name)
    (hvalid : ∀ a ∈ attrs, ValidName a.1) (hnodup : (attrs.map Prod.fst).Nodup)
    (hpad : ∀ c ∈ pad, c = ' ') (he : IsTagEnd e) (hclean : ∀ a ∈ attrs, CleanAttribute a.2) :
    tag? (name ++ (attrsText attrs ++ (pad ++ e))) = tagEnd name attrs e := by
  obtain ⟨c, u, hcu, hc⟩ := @exists_head_attrsText attrs pad e hpad he
  have hlen : attrs.length < (attrsText attrs ++ (pad ++ e)).length + 1 := by
    have := length_le_attrsText attrs
    rw [List.length_append]
    omega
  rw [hcu, tag?_append h hc, ← hcu, (attributes_eq_iff hvalid hpad he hlen).mpr ⟨hclean, rfl⟩,
    Option.bind_some, if_pos hnodup]

/-- **A start tag is read back exactly when its values are clean.** -/
theorem tokenize_opening_iff {attrs : List (Text × Text)} {pad : Text} (h : ValidName name)
    (hvalid : ∀ a ∈ attrs, ValidName a.1) (hnodup : (attrs.map Prod.fst).Nodup)
    (hpad : ∀ c ∈ pad, c = ' ') :
    tokenize (n + 1) ('<' :: (name ++ (attrsText attrs ++ (pad ++ '>' :: rest)))) =
        some (.opened name attrs :: l) ↔
      (∀ a ∈ attrs, CleanAttribute a.2) ∧ tokenize n rest = some l := by
  have he : IsTagEnd ('>' :: rest) := ⟨rest, .inl rfl⟩
  rw [tokenize, if_pos rfl]
  constructor
  · intro ht
    obtain ⟨⟨es, r⟩, htag, ht⟩ := Option.bind_eq_some_iff.mp ht
    obtain ⟨l', hl', hes⟩ := Option.map_eq_some_iff.mp ht
    obtain ⟨hclean, ⟨hr, rfl⟩ | ⟨hr, rfl⟩⟩ := tag?_eq_some h hvalid hpad he htag hes
    · cases hr
      cases hes
      exact ⟨hclean, hl'⟩
    · cases hr
  · rintro ⟨hclean, hl⟩
    rw [tag?_of_clean h hvalid hnodup hpad he hclean]
    simp [tagEnd, hl]

/-- **An empty element is read back exactly when its values are clean.** -/
theorem tokenize_empty_iff {attrs : List (Text × Text)} {pad : Text} (h : ValidName name)
    (hvalid : ∀ a ∈ attrs, ValidName a.1) (hnodup : (attrs.map Prod.fst).Nodup)
    (hpad : ∀ c ∈ pad, c = ' ') :
    tokenize (n + 1) ('<' :: (name ++ (attrsText attrs ++ (pad ++ '/' :: '>' :: rest)))) =
        some (.opened name attrs :: .closed name :: l) ↔
      (∀ a ∈ attrs, CleanAttribute a.2) ∧ tokenize n rest = some l := by
  have he : IsTagEnd ('/' :: '>' :: rest) := ⟨'>' :: rest, .inr rfl⟩
  rw [tokenize, if_pos rfl]
  constructor
  · intro ht
    obtain ⟨⟨es, r⟩, htag, ht⟩ := Option.bind_eq_some_iff.mp ht
    obtain ⟨l', hl', hes⟩ := Option.map_eq_some_iff.mp ht
    obtain ⟨hclean, ⟨hr, rfl⟩ | ⟨hr, rfl⟩⟩ := tag?_eq_some h hvalid hpad he htag hes
    · cases hr
    · cases hr
      cases hes
      exact ⟨hclean, hl'⟩
  · rintro ⟨hclean, hl⟩
    rw [tag?_of_clean h hvalid hnodup hpad he hclean]
    simp [tagEnd, hl]

theorem tokenize_text {t u : Text} (ht : t ≠ []) (hall : '<' ∉ t)
    (hu : u = [] ∨ ∃ v, u = '<' :: v) :
    tokenize (n + 1) (t ++ u) =
      (decode false none t).bind fun v => (tokenize n u).map (.text v :: ·) := by
  have hpos : ∀ d ∈ t, (fun x => decide (x ≠ '<')) d = true := by
    intro d hd
    simp only [ne_eq, decide_eq_true_eq]
    rintro rfl
    exact hall hd
  have hspan : (t ++ u).takeWhile (· ≠ '<') = t ∧ (t ++ u).dropWhile (· ≠ '<') = u := by
    obtain rfl | ⟨v, rfl⟩ := hu
    · rw [List.append_nil]
      exact ⟨List.takeWhile_eq_self_iff.mpr hpos, List.dropWhile_eq_nil_iff.mpr hpos⟩
    · exact takeWhile_append_cons hpos (by simp)
  obtain ⟨c, t, rfl⟩ := List.exists_cons_of_ne_nil ht
  have hc : c ≠ '<' := fun heq => hall (heq ▸ List.mem_cons_self)
  rw [List.cons_append] at hspan ⊢
  rw [tokenize, if_neg hc, hspan.1, hspan.2]

/-- A tag does not give a text. -/
theorem head_of_tag? {s r : Text} {es : List Event} (h : tag? s = some (es, r)) :
    ∃ e t, es = e :: t ∧ ∀ v, e ≠ .text v := by
  unfold tag? at h
  split at h
  · obtain ⟨⟨name, s⟩, -, h⟩ := Option.bind_eq_some_iff.mp h
    dsimp only at h
    split at h
    · cases h
      exact ⟨_, _, rfl, by simp⟩
    · cases h
  · obtain ⟨⟨name, s⟩, -, h⟩ := Option.bind_eq_some_iff.mp h
    obtain ⟨⟨attrs, s⟩, -, h⟩ := Option.bind_eq_some_iff.mp h
    dsimp only at h
    split at h
    · unfold tagEnd at h
      split at h
      · cases h
        exact ⟨_, _, rfl, by simp⟩
      · cases h
        exact ⟨_, _, rfl, by simp⟩
      · cases h
    · cases h

/-- **A value before a tag is read back exactly when it is clean.** -/
theorem tokenize_value_iff {value v : Text} (hvalue : value ≠ []) :
    tokenize (n + 1) (value ++ '<' :: v) = some (.text value :: l) ↔
      CleanText value ∧ tokenize n ('<' :: v) = some l := by
  by_cases hall : '<' ∈ value
  · refine iff_of_false (fun h => ?_) fun h => (h.1.1 _ hall).2.1 rfl
    obtain ⟨a, b, rfl, ha⟩ := List.eq_append_cons_of_mem hall
    rw [List.append_assoc, List.cons_append] at h
    cases a with
    | nil =>
      rw [List.nil_append, tokenize, if_pos rfl] at h
      obtain ⟨⟨es, r⟩, htag, h⟩ := Option.bind_eq_some_iff.mp h
      obtain ⟨l', -, h⟩ := Option.map_eq_some_iff.mp h
      obtain ⟨e, t, rfl, he⟩ := head_of_tag? htag
      exact he _ (List.cons.inj h).1
    | cons c a =>
      rw [tokenize_text (List.cons_ne_nil c a) ha (.inr ⟨_, rfl⟩)] at h
      obtain ⟨w, hw, h⟩ := Option.bind_eq_some_iff.mp h
      obtain ⟨l', -, h⟩ := Option.map_eq_some_iff.mp h
      have hlen := length_le_of_decode hw
      rw [Event.text.inj (List.cons.inj h).1] at hlen
      simp only [List.length_append, List.length_cons] at hlen
      omega
  · rw [tokenize_text hvalue hall (.inr ⟨v, rfl⟩), ← decode_text_iff]
    constructor
    · intro h
      obtain ⟨w, hw, h⟩ := Option.bind_eq_some_iff.mp h
      obtain ⟨l', hl', h⟩ := Option.map_eq_some_iff.mp h
      cases h
      exact ⟨hw, hl'⟩
    · rintro ⟨hw, hl⟩
      rw [hw, hl]
      rfl

theorem cleanText_of_blank {t : Text} (h : ∀ c ∈ t, c = ' ' ∨ c = '\n') : CleanText t := by
  constructor
  · intro c hc
    rcases h c hc with rfl | rfl <;> simp [CleanChar, isXmlChar]
  · intro hend
    have hmem : ']' ∈ t := hend.subset (by simp [sectionEnd])
    rcases h _ hmem with h | h <;> cases h

theorem cleanText_nil : CleanText [] := cleanText_of_blank (List.forall_mem_nil _)

/-- White space before a tag. -/
theorem exists_tokenize_blank {t u : Text} (h : ∀ c ∈ t, c = ' ' ∨ c = '\n')
    (hn : (t ++ '<' :: u).length ≤ n) : ∃ m, u.length ≤ m ∧ ∀ l,
      (tokenize n (t ++ '<' :: u) = some (textEvent t ++ l) ↔
        tokenize (m + 1) ('<' :: u) = some l) := by
  rw [List.length_append, List.length_cons] at hn
  by_cases ht : t = []
  · subst ht
    rw [List.length_nil] at hn
    obtain ⟨m, rfl⟩ : ∃ m, n = m + 1 := ⟨n - 1, by omega⟩
    exact ⟨m, by omega, fun l => Iff.rfl⟩
  · have hpos := List.length_pos_of_ne_nil ht
    obtain ⟨m, rfl⟩ : ∃ m, n = m + 1 + 1 := ⟨n - 2, by omega⟩
    refine ⟨m, by omega, fun l => ?_⟩
    rw [textEvent, if_neg ht]
    exact (tokenize_value_iff ht).trans (and_iff_right (cleanText_of_blank h))

end

/-! ## Reading what was written -/

theorem render_cons (p : Piece) (ps : List Piece) : render (p :: ps) = p.render ++ render ps := rfl

/-- White space with nothing after it. -/
theorem tokenize_blank_only {t : Text} (ht : ∀ c ∈ t, c = ' ' ∨ c = '\n') {n : ℕ}
    (hn : t.length ≤ n) : tokenize n t = some (textEvent t) := by
  rw [textEvent]
  split
  · rename_i hnil
    rw [hnil]
    cases n <;> rfl
  · rename_i hne
    have hpos := List.length_pos_of_ne_nil hne
    obtain ⟨n, rfl⟩ : ∃ m, n = m + 1 := ⟨n - 1, by omega⟩
    have hlt : '<' ∉ t := by
      intro hmem
      rcases ht _ hmem with h | h <;> cases h
    have htext := @tokenize_text n t [] hne hlt (.inl rfl)
    rw [List.append_nil] at htext
    rw [htext, (decode_text_iff t).mpr (cleanText_of_blank ht)]
    cases n <;> rfl

/-- **What is written is read back exactly when all its values are clean.** -/
theorem tokenize_render_iff {ps : List Piece} (hvalid : ∀ p ∈ ps, p.Valid) {t : Text}
    (ht : ∀ c ∈ t, c = ' ' ∨ c = '\n') {n : ℕ} (hn : (t ++ render ps).length ≤ n) :
    tokenize n (t ++ render ps) = some (events t ps) ↔ ∀ p ∈ ps, p.Clean := by
  induction ps generalizing t n with
  | nil =>
    rw [render, List.flatMap_nil, List.append_nil] at hn ⊢
    exact iff_of_true (tokenize_blank_only ht hn) (List.forall_mem_nil _)
  | cons p ps ih =>
    obtain ⟨hp, hps⟩ := List.forall_mem_cons.mp hvalid
    have hnil : ∀ c ∈ ([] : Text), c = ' ' ∨ c = '\n' := by
      intro c hc
      cases hc
    -- what follows the tag is read from its own start
    have ih' : ∀ m, (render ps).length ≤ m →
        (tokenize m (render ps) = some (events [] ps) ↔ ∀ p ∈ ps, p.Clean) := fun m hm =>
      ih hps hnil hm
    rw [List.forall_mem_cons]
    rw [render_cons] at hn ⊢
    cases p with
    | blank s =>
      rw [← List.append_assoc] at hn
      rw [events, Piece.render, ← List.append_assoc,
        and_iff_right (show (Piece.blank s).Clean from trivial)]
      refine ih hps (fun c hc => ?_) hn
      rcases List.mem_append.mp hc with hc | hc
      · exact ht c hc
      · exact hp c hc
    | opening name attrs pad =>
      obtain ⟨hname, hattrs, hnodup, hpad⟩ := hp
      have hrender : (Piece.opening name attrs pad).render ++ render ps =
          '<' :: (name ++ (attrsText attrs ++ (pad ++ '>' :: render ps))) := by
        simp [Piece.render]
      rw [hrender] at hn ⊢
      obtain ⟨m, hm, hblank⟩ := exists_tokenize_blank ht hn
      rw [events, hblank, tokenize_opening_iff hname hattrs hnodup hpad, ih' m]
      · rfl
      · simp at hm
        omega
    | closing name =>
      have hrender : (Piece.closing name).render ++ render ps =
          '<' :: '/' :: (name ++ '>' :: render ps) := by
        simp [Piece.render]
      rw [hrender] at hn ⊢
      obtain ⟨m, hm, hblank⟩ := exists_tokenize_blank ht hn
      rw [events, hblank, tokenize_closing_iff hp, ih' m,
        and_iff_right (show (Piece.closing name).Clean from trivial)]
      simp at hm
      omega
    | empty name attrs pad =>
      obtain ⟨hname, hattrs, hnodup, hpad⟩ := hp
      have hrender : (Piece.empty name attrs pad).render ++ render ps =
          '<' :: (name ++ (attrsText attrs ++ (pad ++ '/' :: '>' :: render ps))) := by
        simp [Piece.render]
      rw [hrender] at hn ⊢
      obtain ⟨m, hm, hblank⟩ := exists_tokenize_blank ht hn
      rw [events, hblank, tokenize_empty_iff hname hattrs hnodup hpad, ih' m]
      · rfl
      · simp at hm
        omega
    | leaf name value =>
      have hrender : (Piece.leaf name value).render ++ render ps = '<' :: (name ++ (attrsText [] ++
          ([] ++ '>' :: (value ++ '<' :: '/' :: (name ++ '>' :: render ps))))) := by
        simp [Piece.render, attrsText]
      rw [hrender] at hn ⊢
      obtain ⟨m, hm, hblank⟩ := exists_tokenize_blank ht hn
      have hm' : name.length + value.length + name.length + (render ps).length + 4 ≤ m := by
        simp [attrsText] at hm
        omega
      rw [events, hblank, tokenize_opening_iff hp (List.forall_mem_nil _) List.nodup_nil
        (List.forall_mem_nil _), and_iff_right (List.forall_mem_nil _)]
      obtain ⟨m, rfl⟩ : ∃ k, m = k + 1 := ⟨m - 1, by omega⟩
      by_cases hvalue : value = []
      · subst hvalue
        rw [List.nil_append, textEvent, if_pos rfl, List.nil_append, tokenize_closing_iff hp,
          ih' m (by omega)]
        exact (and_iff_right cleanText_nil).symm
      · obtain ⟨m, rfl⟩ : ∃ k, m = k + 1 := ⟨m - 1, by omega⟩
        rw [textEvent, if_neg hvalue, List.singleton_append, tokenize_value_iff hvalue,
          tokenize_closing_iff hp, ih' m (by omega)]
        rfl

/-! ## Nesting of what was written -/

/-- The elements that are open after pieces, when those of `stack` were open before; `none` when
a piece closes another element than the last one. -/
def after : List Text → List Piece → Option (List Text)
  | stack, [] => some stack
  | stack, .blank _ :: ps => after stack ps
  | stack, .opening name _ _ :: ps => after (name :: stack) ps
  | [], .closing _ :: _ => none
  | m :: stack, .closing name :: ps => if m = name then after stack ps else none
  | stack, .empty _ _ _ :: ps => after stack ps
  | stack, .leaf _ _ :: ps => after stack ps

/-- Pieces that leave the elements `names` open. -/
def LeavesOpen (ps : List Piece) (names : List Text) : Prop :=
  ∀ stack, after stack ps = some (names ++ stack)

theorem after_append (stack : List Text) (ps qs : List Piece) :
    after stack (ps ++ qs) = (after stack ps).bind fun st => after st qs := by
  induction ps generalizing stack with
  | nil => rfl
  | cons p ps ih =>
    cases p with
    | closing name =>
      cases stack with
      | nil => rfl
      | cons m stack =>
        simp only [List.cons_append, after]
        split
        · exact ih stack
        · rfl
    | blank s => simpa only [List.cons_append, after] using ih stack
    | opening name attrs pad => simpa only [List.cons_append, after] using ih (name :: stack)
    | empty name attrs pad => simpa only [List.cons_append, after] using ih stack
    | leaf name value => simpa only [List.cons_append, after] using ih stack

theorem leavesOpen_nil : LeavesOpen [] [] := fun _ => rfl

theorem LeavesOpen.append {ps qs : List Piece} {a b : List Text} (hp : LeavesOpen ps a)
    (hq : LeavesOpen qs b) : LeavesOpen (ps ++ qs) (b ++ a) := by
  intro stack
  rw [after_append, hp, Option.bind_some, hq, List.append_assoc]

/-- Balanced parts make a balanced whole. -/
theorem leavesOpen_flatMap {α : Type} {f : α → List Piece} {l : List α}
    (h : ∀ x ∈ l, LeavesOpen (f x) []) : LeavesOpen (l.flatMap f) [] := by
  induction l with
  | nil => exact leavesOpen_nil
  | cons x l ih =>
    obtain ⟨hx, hl⟩ := List.forall_mem_cons.mp h
    exact hx.append (ih hl)

/-- An element with a balanced content is balanced. -/
theorem LeavesOpen.element {ps : List Piece} (h : LeavesOpen ps []) (s t u v : Text) {name : Text}
    {attrs : List (Text × Text)} {pad : Text} :
    LeavesOpen (.blank s :: .opening name attrs pad :: .blank t :: (ps ++ [.blank u, .closing name,
      .blank v])) [] := by
  intro stack
  simp only [after, List.nil_append]
  rw [after_append, h]
  simp [after]

section
variable {d : Text} {b : Text}

/-- After the end of the document, nothing is closed. -/
theorem nesting_ended (t : Text) (ps qs : List Piece) :
    nesting true [] (events t (ps ++ .closing d :: qs)) = false := by
  have htext : ∀ (t : Text) (es : List Event), nesting true [] es = false →
      nesting true [] (textEvent t ++ es) = false := by
    intro t es h
    rw [textEvent]
    split
    · exact h
    · simp [nesting, h]
  induction ps generalizing t with
  | nil => exact htext t _ rfl
  | cons p ps ih =>
    cases p with
    | blank s => exact ih (t ++ s)
    | opening name attrs pad => exact htext t _ rfl
    | closing name => exact htext t _ rfl
    | empty name attrs pad => exact htext t _ rfl
    | leaf name value => exact htext t _ rfl

theorem nesting_textEvent {stack : List Text} (hstack : stack ≠ []) (t : Text) (es : List Event) :
    nesting true stack (textEvent t ++ es) = nesting true stack es := by
  rw [textEvent]
  split
  · rfl
  · cases stack with
    | nil => exact absurd rfl hstack
    | cons n stack => simp [nesting]

/-- The content of a document, and its end. -/
theorem nesting_content_iff (hb : ∀ c ∈ b, isSpace c = true) (stack : List Text) (t : Text)
    (ps : List Piece) :
    nesting true (stack ++ [d]) (events t (ps ++ [.closing d, .blank b])) = true ↔
      after stack ps = some [] := by
  have hne : ∀ s : List Text, s ++ [d] ≠ [] := by simp
  have hempty : ∀ s : List Text, (s ++ [d]).isEmpty = false := fun s =>
    List.isEmpty_eq_false_iff.mpr (hne s)
  induction ps generalizing stack t with
  | nil =>
    rw [List.nil_append, events, events, events, List.nil_append, nesting_textEvent (hne _), after]
    cases stack with
    | nil =>
      rw [textEvent]
      split
      · simp [nesting]
      · simpa [nesting] using hb
    | cons m stack =>
      rw [List.cons_append, nesting]
      have hend : nesting true (stack ++ [d]) (textEvent b) = false := by
        have h := nesting_textEvent (hne stack) b []
        rw [List.append_nil] at h
        rw [h]
        simp [nesting]
      simp [hend]
  | cons p ps ih =>
    cases p with
    | blank s => exact ih stack (t ++ s)
    | opening name attrs pad =>
      rw [List.cons_append, events, nesting_textEvent (hne _)]
      simpa [nesting, after, hempty] using ih (name :: stack) []
    | closing name =>
      rw [List.cons_append, events, nesting_textEvent (hne _)]
      cases stack with
      | nil =>
        rw [List.nil_append, nesting, nesting_ended]
        simp [after]
      | cons m stack =>
        rw [List.cons_append, nesting, after]
        by_cases hm : m = name
        · simpa [hm] using ih stack []
        · simp [hm]
    | empty name attrs pad =>
      rw [List.cons_append, events, nesting_textEvent (hne _)]
      simpa [nesting, after, hempty] using ih stack []
    | leaf name value =>
      rw [List.cons_append, events, nesting_textEvent (hne _), nesting,
        nesting_textEvent (List.cons_ne_nil _ _)]
      simpa [nesting, after, hempty] using ih stack []

end

/-- The pieces of a document: one element on its own lines. -/
def document (d : Text) (ps : List Piece) : List Piece :=
  .blank ['\n'] :: .opening d [] [] :: .blank ['\n'] :: (ps ++ [.closing d, .blank ['\n']])

/-- **A document is read back exactly when its values are clean and its tags are balanced.** -/
theorem parse_document_iff {s d : Text} {ps : List Piece} (hd : ValidName d)
    (hvalid : ∀ p ∈ ps, p.Valid) (hs : afterDeclaration s = render (document d ps)) :
    parse s = some (events [] (document d ps)) ↔ (∀ p ∈ ps, p.Clean) ∧ after [] ps = some [] := by
  have hwhole : ∀ p ∈ document d ps, p.Valid := by
    intro p hp
    simp only [document, List.mem_cons, List.mem_append, List.not_mem_nil, or_false] at hp
    obtain rfl | rfl | rfl | hp | rfl | rfl := hp
    · simp [Piece.Valid]
    · exact ⟨hd, List.forall_mem_nil _, List.nodup_nil, List.forall_mem_nil _⟩
    · simp [Piece.Valid]
    · exact hvalid p hp
    · exact hd
    · simp [Piece.Valid]
  have hclean : (∀ p ∈ document d ps, p.Clean) ↔ ∀ p ∈ ps, p.Clean := by
    refine ⟨fun h p hp => h p ?_, fun h p hp => ?_⟩
    · simp [document, hp]
    · simp only [document, List.mem_cons, List.mem_append, List.not_mem_nil, or_false] at hp
      obtain rfl | rfl | rfl | hp | rfl | rfl := hp
      · trivial
      · exact List.forall_mem_nil _
      · trivial
      · exact h p hp
      · trivial
      · trivial
  have hnesting : nesting false [] (events [] (document d ps)) = true ↔ after [] ps = some [] := by
    refine Iff.trans (Eq.to_iff ?_) (@nesting_content_iff d ['\n'] (by simp [isSpace]) [] ['\n'] ps)
    simp [document, events, textEvent, nesting, isSpace]
  have htokens := @tokenize_render_iff _ hwhole [] (List.forall_mem_nil _) _ le_rfl
  rw [List.nil_append] at htokens
  rw [parse, hs, Option.filter_eq_some_iff, htokens, hclean, hnesting]

end Xml
