import Survol.Dockit.FileAccesses

/-!
# Reassembly of buffers

The fragments that are given to one concatenator, and the buffers that the scanners see. Full
segments are kept, but the shorter fragment that ends them is analysed on its own, and nothing is
analysed when the access is closed.

## Main definitions

* `messages` — the buffers that the fragments were cut from.
* `analysedFrom`, `pendingFrom` — the buffers that are analysed, and what is kept.
* `Reassembles` — the fragments are put back together.

## Main results

* `appendFragments_eq` — what the concatenator does.
* `reassembles_iff` — when the fragments are put back together.
-/

open PyText

namespace Survol.Dockit

/-! ## Fragments -/

/-- A fragment, with its size and the bytes that it stands for. -/
structure Fragment where
  aFragment : Text
  szFragment : ℤ
  decoded : Text
  decodes : decodeOctalEscapeSequence aFragment = some decoded

/-- The fragment is one segment of a longer message. -/
def Fragment.IsFull (f : Fragment) : Prop :=
  isSegmentSize f.szFragment = true ∧ f.szFragment = f.decoded.length

instance (f : Fragment) : Decidable f.IsFull := inferInstanceAs (Decidable (_ ∧ _))

/-- The fragments are given to a concatenator, one after the other. -/
def appendFragments (scanners : BufferScanners) (b : BufferConcatenator) (fs : List Fragment) :
    Option BufferConcatenator :=
  fs.foldlM (fun b f => b.appendIOBuffer scanners f.aFragment f.szFragment) b

/-- The buffers that the fragments were cut from: a maximal run of full segments, with the shorter
fragment that ends it. A run that is not ended gives none. -/
def messages (run : Text) : List Fragment → List Text
  | [] => []
  | f :: fs =>
    if f.IsFull then messages (run ++ f.decoded) fs
    else (run ++ f.decoded) :: messages [] fs

/-! ## What the concatenator does -/

/-- The buffers that are analysed when a fragment comes. -/
def analysedBy (pending : Text) (f : Fragment) : List Text :=
  if f.IsFull then [] else if pending = [] then [f.decoded] else [pending, f.decoded]

/-- What is kept after a fragment. -/
def pendingAfter (pending : Text) (f : Fragment) : Text :=
  if f.IsFull then pending ++ f.decoded else []

/-- The buffers that are analysed, in order. -/
def analysedFrom (pending : Text) : List Fragment → List Text
  | [] => []
  | f :: fs => analysedBy pending f ++ analysedFrom (pendingAfter pending f) fs

/-- What is kept in the end. -/
def pendingFrom (pending : Text) (fs : List Fragment) : Text := fs.foldl pendingAfter pending

section
variable {scanners : BufferScanners} {b : BufferConcatenator} {c : Option Text}

/-- The same data, with other fragments that are kept. -/
def BufferConcatenator.keeping (c : Option Text) (b : BufferConcatenator) : BufferConcatenator :=
  ⟨c, b.parsedData⟩

theorem keeping_keeping (c' : Option Text) : (b.keeping c').keeping c = b.keeping c := rfl

theorem scan_keeping (x : Text) (scanner : Text × (Text → List Text)) :
    (b.keeping c).scan x scanner = (b.scan x scanner).keeping c := by
  rw [BufferConcatenator.scan, BufferConcatenator.scan]
  dsimp only
  split <;> rfl

/-- The scanners do not look at what is kept. -/
theorem analyseCompleteBuffer_keeping (x : Text) :
    (b.keeping c).analyseCompleteBuffer scanners x =
      (b.analyseCompleteBuffer scanners x).keeping c := by
  rw [BufferConcatenator.analyseCompleteBuffer, BufferConcatenator.analyseCompleteBuffer]
  induction scanners generalizing b with
  | nil => rfl
  | cons scanner scanners ih =>
    rw [List.foldl_cons, List.foldl_cons, scan_keeping]
    exact ih

/-- Several buffers are analysed. -/
def analyseAll (scanners : BufferScanners) (b : BufferConcatenator) (buffers : List Text) :
    BufferConcatenator :=
  buffers.foldl (·.analyseCompleteBuffer scanners) b

theorem analyseAll_keeping (buffers : List Text) :
    analyseAll scanners (b.keeping c) buffers = (analyseAll scanners b buffers).keeping c := by
  induction buffers generalizing b with
  | nil => rfl
  | cons x buffers ih =>
    have hstep := @analyseCompleteBuffer_keeping scanners b c x
    exact (congrArg (fun b' => analyseAll scanners b' buffers) hstep).trans ih

theorem analyseAll_append (xs ys : List Text) :
    analyseAll scanners b (xs ++ ys) = analyseAll scanners (analyseAll scanners b xs) ys :=
  List.foldl_append

/-- **One fragment**: some buffers are analysed, and something is kept. -/
theorem appendIOBuffer_eq (f : Fragment) :
    ∃ c', c'.getD [] = pendingAfter (b.currentBuffer.getD []) f ∧
      b.appendIOBuffer scanners f.aFragment f.szFragment =
        some ((analyseAll scanners b (analysedBy (b.currentBuffer.getD []) f)).keeping c') := by
  rw [BufferConcatenator.appendIOBuffer, f.decodes, analysedBy, pendingAfter]
  by_cases hfull : f.IsFull
  · rw [if_pos hfull, if_pos hfull]
    exact ⟨_, rfl, if_pos hfull⟩
  · rw [if_neg hfull, if_neg hfull]
    by_cases hnil : b.currentBuffer.getD [] = []
    · refine ⟨b.currentBuffer, hnil, ?_⟩
      rw [if_pos hnil]
      refine (if_neg hfull).trans (congrArg some ?_)
      rw [if_pos hnil]
      exact @analyseCompleteBuffer_keeping scanners b b.currentBuffer f.decoded
    · refine ⟨none, rfl, ?_⟩
      rw [if_neg hnil]
      refine (if_neg hfull).trans (congrArg some ?_)
      rw [if_neg hnil]
      exact analyseCompleteBuffer_keeping f.decoded

/-- **The buffers that are analysed, and what is kept**, for any fragments. -/
theorem appendFragments_eq (fs : List Fragment) :
    ∃ c', c'.getD [] = pendingFrom (b.currentBuffer.getD []) fs ∧
      appendFragments scanners b fs =
        some ((analyseAll scanners b (analysedFrom (b.currentBuffer.getD []) fs)).keeping c') := by
  induction fs generalizing b with
  | nil => exact ⟨b.currentBuffer, rfl, rfl⟩
  | cons f fs ih =>
    obtain ⟨c, hc, happend⟩ := @appendIOBuffer_eq scanners b f
    obtain ⟨c', hc', hrest⟩ := @ih
      ((analyseAll scanners b (analysedBy (b.currentBuffer.getD []) f)).keeping c)
    have hkept : ((analyseAll scanners b (analysedBy (b.currentBuffer.getD []) f)).keeping
        c).currentBuffer.getD [] = pendingAfter (b.currentBuffer.getD []) f := hc
    rw [hkept] at hc' hrest
    refine ⟨c', hc', ?_⟩
    · rw [analyseAll_keeping, keeping_keeping, ← analyseAll_append] at hrest
      rw [appendFragments, List.foldlM_cons, happend]
      exact hrest

end

/-- The buffers that the scanners see, whichever they are, and what is kept in the end. -/
def Analyses (fs : List Fragment) (buffers : List Text) (pending : Text) : Prop :=
  ∀ scanners, ∃ c, c.getD [] = pending ∧ appendFragments scanners .new fs =
    some ((analyseAll scanners .new buffers).keeping c)

theorem analyses (fs : List Fragment) : Analyses fs (analysedFrom [] fs) (pendingFrom [] fs) :=
  fun scanners => @appendFragments_eq scanners .new fs

/-- A scanner that finds the whole buffer. -/
def wholeBuffer : BufferScanners := [("Buffer".toList, fun x => [x])]

theorem analyseAll_wholeBuffer (b : BufferConcatenator) (buffers found : List Text)
    (h : b.parsedData = if found = [] then none else some [("Buffer".toList, found)]) :
    (analyseAll wholeBuffer b buffers).parsedData =
      if found ++ buffers = [] then none else some [("Buffer".toList, found ++ buffers)] := by
  induction buffers generalizing b found with
  | nil =>
    rw [List.append_nil]
    exact h
  | cons x buffers ih =>
    have hstep : (b.analyseCompleteBuffer wholeBuffer x).parsedData =
        if found ++ [x] = [] then none else some [("Buffer".toList, found ++ [x])] := by
      rw [if_neg (by simp)]
      cases found with
      | nil =>
        rw [if_pos rfl] at h
        simp only [BufferConcatenator.analyseCompleteBuffer, wholeBuffer, List.foldl_cons,
          List.foldl_nil, BufferConcatenator.scan, h]
        rfl
      | cons y found =>
        rw [if_neg (List.cons_ne_nil y found)] at h
        simp only [BufferConcatenator.analyseCompleteBuffer, wholeBuffer, List.foldl_cons,
          List.foldl_nil, BufferConcatenator.scan, h]
        rfl
    have hrest := ih _ _ hstep
    rw [List.append_assoc, List.singleton_append] at hrest
    exact hrest

/-- The buffers that are analysed can be told from what the scanners find. -/
theorem Analyses.unique {fs : List Fragment} {buffers buffers' : List Text} {p p' : Text}
    (h : Analyses fs buffers p) (h' : Analyses fs buffers' p') : buffers = buffers' ∧ p = p' := by
  obtain ⟨c, hc, hrun⟩ := h wholeBuffer
  obtain ⟨c', hc', hrun'⟩ := h' wholeBuffer
  have heq := Option.some.inj (hrun.symm.trans hrun')
  have hpending : c = c' := congrArg BufferConcatenator.currentBuffer heq
  have hdata := congrArg BufferConcatenator.parsedData heq
  change (analyseAll wholeBuffer .new buffers).parsedData =
    (analyseAll wholeBuffer .new buffers').parsedData at hdata
  rw [analyseAll_wholeBuffer .new buffers [] rfl, analyseAll_wholeBuffer .new buffers' [] rfl,
    List.nil_append, List.nil_append] at hdata
  refine ⟨?_, by rw [← hc, ← hc', hpending]⟩
  split at hdata
  · split at hdata
    · rename_i h1 h2
      rw [h1, h2]
    · cases hdata
  · split at hdata
    · cases hdata
    · exact (Prod.mk.inj (List.cons.inj (Option.some.inj hdata)).1).2

/-! ## What is put back together -/

section
variable {pending : Text} {fs : List Fragment}

/-- **No byte is lost or moved.** -/
theorem flatten_analysedFrom : (analysedFrom pending fs).flatten ++ pendingFrom pending fs =
    pending ++ (fs.map Fragment.decoded).flatten := by
  induction fs generalizing pending with
  | nil =>
    rw [List.map_nil, List.flatten_nil, List.append_nil]
    rfl
  | cons f fs ih =>
    have hstep : (analysedBy pending f).flatten ++ pendingAfter pending f =
        pending ++ f.decoded := by
      rw [analysedBy, pendingAfter]
      split
      · rfl
      · split
        · rename_i hnil
          simp [hnil]
        · simp
    calc (analysedFrom pending (f :: fs)).flatten ++ pendingFrom pending (f :: fs)
        = (analysedBy pending f).flatten ++ ((analysedFrom (pendingAfter pending f) fs).flatten ++
            pendingFrom (pendingAfter pending f) fs) := by
          rw [analysedFrom, List.flatten_append, List.append_assoc]
          rfl
      _ = pending ++ ((f :: fs).map Fragment.decoded).flatten := by
          rw [ih, ← List.append_assoc, hstep, List.map_cons, List.flatten_cons, List.append_assoc]

theorem length_messages_le (run : Text) :
    (messages run fs).length ≤ (analysedFrom pending fs).length := by
  induction fs generalizing run pending with
  | nil => exact le_rfl
  | cons f fs ih =>
    rw [messages, analysedFrom, analysedBy, List.length_append]
    split
    · rw [List.length_nil, Nat.zero_add]
      exact ih _
    · have hrest := @ih (pendingAfter pending f) []
      rw [List.length_cons]
      split <;> simp only [List.length_cons, List.length_nil] <;> omega

/-- **The fragments are put back together only if no full segment has a byte.** -/
theorem analysedFrom_eq_messages : (analysedFrom pending fs = messages pending fs ∧
      pendingFrom pending fs = []) ↔
    pending = [] ∧ ∀ f ∈ fs, f.IsFull → f.decoded = [] := by
  induction fs generalizing pending with
  | nil =>
    constructor
    · rintro ⟨-, h⟩
      exact ⟨h, List.forall_mem_nil _⟩
    · rintro ⟨h, -⟩
      exact ⟨rfl, h⟩
  | cons f fs ih =>
    have hpending : pendingFrom pending (f :: fs) = pendingFrom (pendingAfter pending f) fs := rfl
    rw [hpending, List.forall_mem_cons, analysedFrom, messages, analysedBy]
    by_cases hfull : f.IsFull
    · have hafter : pendingAfter pending f = pending ++ f.decoded := if_pos hfull
      rw [if_pos hfull, if_pos hfull, List.nil_append, hafter, ih, List.append_eq_nil_iff,
        and_assoc]
      exact and_congr_right fun _ => and_congr_left fun _ => ⟨fun h _ => h, fun h => h hfull⟩
    · have hafter : pendingAfter pending f = [] := if_neg hfull
      rw [if_neg hfull, if_neg hfull, hafter]
      by_cases hnil : pending = []
      · rw [if_pos hnil, hnil, List.singleton_append, List.nil_append, List.cons.injEq, and_assoc,
          ih]
        exact ⟨fun h => ⟨rfl, fun h' => absurd h' hfull, h.2.2⟩, fun h => ⟨rfl, rfl, h.2.2⟩⟩
      · rw [if_neg hnil]
        refine iff_of_false ?_ fun h => hnil h.1
        rintro ⟨h, -⟩
        have hlen := congrArg List.length h
        have hle := @length_messages_le [] fs []
        simp only [List.length_append, List.length_cons, List.length_nil] at hlen
        omega

end

theorem bufConcat_closed (env : Env) (timeStamp : Text) (isRead : Bool) (a : FileAccess) :
    (a.closed env timeStamp).bufConcat isRead = a.bufConcat isRead := by
  rw [FileAccess.closed]
  split <;> rfl

/-- **The fragments are put back together**: each run of full segments is analysed with the fragment
that ends it, no byte is lost or moved, and nothing is kept by the access once it is closed. -/
def Reassembles (env : Env) (fs : List Fragment) : Prop :=
  ∃ buffers pending, Analyses fs buffers pending ∧ buffers = messages [] fs ∧
    buffers.flatten ++ pending = (fs.map Fragment.decoded).flatten ∧
    ∀ (a : FileAccess) (isRead : Bool) (timeStamp : Text),
      a.bufConcat isRead = appendFragments env.bufferScanners .new fs →
      ∀ b ∈ (a.closed env timeStamp).bufConcat isRead, b.currentBuffer.getD [] = []

theorem reassembles_iff_analysedFrom (env : Env) (fs : List Fragment) : Reassembles env fs ↔
    analysedFrom [] fs = messages [] fs ∧ pendingFrom [] fs = [] := by
  obtain ⟨c, hc, hrun⟩ := analyses fs env.bufferScanners
  constructor
  · rintro ⟨buffers, pending, hanalyses, hmessages, -, hclosed⟩
    obtain ⟨rfl, rfl⟩ := hanalyses.unique (analyses fs)
    refine ⟨hmessages, ?_⟩
    let a : FileAccess := { FileAccess.new 0 [] with
      bufConcatRead := appendFragments env.bufferScanners .new fs }
    have hkept := hclosed a true [] rfl
    rw [bufConcat_closed] at hkept
    exact hc.symm.trans (hkept _ hrun)
  · rintro ⟨hmessages, hpending⟩
    refine ⟨_, _, analyses fs, hmessages, flatten_analysedFrom, ?_⟩
    intro a isRead timeStamp ha b hb
    rw [bufConcat_closed, ha, hrun] at hb
    cases hb
    exact hc.trans hpending

/-- **When the fragments are put back together**: no full segment has a byte. The bytes always come
in order, and none is lost. -/
theorem reassembles_iff (env : Env) (fs : List Fragment) :
    (Reassembles env fs ↔ ∀ f ∈ fs, f.IsFull → f.decoded = []) ∧
      ∃ buffers pending, Analyses fs buffers pending ∧
        buffers.flatten ++ pending = (fs.map Fragment.decoded).flatten := by
  refine ⟨?_, _, _, analyses fs, flatten_analysedFrom⟩
  rw [reassembles_iff_analysedFrom, analysedFrom_eq_messages]
  exact and_iff_right rfl

theorem decodeEscapes_replicate (n : ℕ) :
    decodeEscapes n (List.replicate n 'a') = some (List.replicate n 'a') := by
  induction n with
  | zero => rfl
  | succ n ih =>
    exact congrArg (Option.map ('a' :: ·)) ih

/-- A segment of `n` letters. -/
def segmentOf (n : ℕ) : Fragment where
  aFragment := List.replicate n 'a'
  szFragment := n
  decoded := List.replicate n 'a'
  decodes := by
    rw [decodeOctalEscapeSequence, List.length_replicate]
    exact decodeEscapes_replicate n

theorem decoded_segmentOf_succ (n : ℕ) : [] ++ (segmentOf (n + 1)).decoded ≠ [] :=
  List.cons_ne_nil 'a' (List.replicate n 'a')

theorem isFull_segmentOf {n : ℕ} (h : isSegmentSize n = true) : (segmentOf n).IsFull :=
  ⟨h, congrArg Nat.cast List.length_replicate.symm⟩

/-- A full segment and the fragment after it are two buffers. -/
theorem analysedFrom_ne_messages {f g : Fragment} (hf : f.IsFull) (hne : [] ++ f.decoded ≠ [])
    (hg : ¬ g.IsFull) : analysedFrom [] [f, g] ≠ messages [] [f, g] := by
  rw [messages, if_pos hf, messages, if_neg hg, analysedFrom, analysedBy, if_pos hf,
    analysedFrom, analysedBy, if_neg hg, pendingAfter, if_pos hf, if_neg hne]
  intro h
  have hlen := congrArg List.length h
  cases hlen

/-- A segment of 256 bytes, and the byte after it, are not put back together. -/
theorem not_forall_reassembles : ¬ ∀ fs, Reassembles (.replayed 0 []) fs := by
  intro h
  obtain ⟨hmessages, -⟩ := (reassembles_iff_analysedFrom _ _).mp (h [segmentOf 256, segmentOf 1])
  have hshort : ¬ (segmentOf 1).IsFull := by
    rintro ⟨hsize, -⟩
    cases hsize
  exact analysedFrom_ne_messages (isFull_segmentOf rfl) (decoded_segmentOf_succ 255) hshort
    hmessages

end Survol.Dockit
