import Survol.Events.EventFiles

/-!
# Writers and a reader of a file of events

Writers append lines to a file. A reader takes all the lines, gives them one by one, and then
truncates the file. The steps of the writers can fall between any two steps of the reader.

## Main definitions

* `State`, `Action`, `step` — the file, the reader, and what they do.
* `Safe` — nothing is appended between reading and truncating, no line is malformed, and the
  reader is not abandoned.
* `Exact`, `Deliverable` — each event is given once, and it can be given.

## Main results

* `delivered_of_safe` — in a safe run, each event that is written is given exactly once.
-/

namespace Survol.Events

/-- A line of a file: a triple, or what raises an exception when it is loaded. -/
inductive Line where
  | triple (t : Triple)
  | malformed
  deriving DecidableEq, Repr

/-- The triple of a line. -/
def Line.triple? : Line → Option Triple
  | .triple t => some t
  | .malformed => none

/-- The events of some lines. -/
def eventsOf (ls : List Line) : List Triple := ls.filterMap Line.triple?

/-- Where the reader is. -/
inductive Reader where
  /-- It is not started, or it has returned. -/
  | idle
  /-- It is about to open the file, or to give up, after the tries that are left. -/
  | trying (maxTry : ℕ)
  /-- It has read the lines, and it has still some of them to give. It stands at the `yield`
  of the line before, or at none. -/
  | reading (maxTry : ℕ) (atYield : Bool) (rest : List Line)
  deriving DecidableEq, Repr

/-- The file, the reader, the events that were written, and those that were given. -/
structure State where
  file : Option (List Line)
  reader : Reader
  written : List Triple
  yielded : List Triple
  deriving DecidableEq, Repr

/-- No file, and no reader. -/
def State.initial : State := ⟨none, .idle, [], []⟩

/-- What a writer, the reader, or its consumer does. -/
inductive Action where
  /-- A writer appends a line. -/
  | append (l : Line)
  /-- The consumer starts the reader. -/
  | start
  /-- The reader opens the file and reads its lines. -/
  | readlines
  /-- The reader loads its next line. -/
  | next
  /-- The reader truncates the file, after the last line. -/
  | truncate
  /-- The reader returns, after the last try. -/
  | giveUp
  /-- The consumer drops the reader, at a `yield`. -/
  | abandon
  deriving DecidableEq, Repr

/-- One step, if it can be done. -/
def step (s : State) : Action → Option State
  | .append l => some { s with
      file := some (s.file.getD [] ++ [l])
      written := s.written ++ eventsOf [l] }
  | .start => match s.reader with
    | .idle => some { s with reader := .trying 3 }
    | _ => none
  | .readlines => match s.reader with
    | .trying (maxTry + 1) => match s.file with
      | some ls => some { s with reader := .reading maxTry false ls }
      | none => some { s with reader := .trying maxTry }
    | _ => none
  | .next => match s.reader with
    | .reading maxTry _ (.triple t :: rest) =>
      some { s with reader := .reading maxTry true rest, yielded := s.yielded ++ [t] }
    | .reading maxTry _ (.malformed :: _) => some { s with reader := .trying maxTry }
    | _ => none
  | .truncate => match s.reader with
    | .reading _ _ [] => some { s with file := some [], reader := .idle }
    | _ => none
  | .giveUp => match s.reader with
    | .trying 0 => some { s with reader := .idle }
    | _ => none
  | .abandon => match s.reader with
    | .reading _ true _ => some { s with reader := .idle }
    | _ => none

/-- The state after some steps, if they can be done. -/
def run : State → List Action → Option State
  | s, [] => some s
  | s, a :: as => (step s a).bind fun s' => run s' as

/-! ## The property and its condition -/

/-- The lines that are still to be given. -/
def State.unread (s : State) : List Line :=
  match s.reader with
  | .reading _ _ rest => rest
  | _ => s.file.getD []

/-- Each event that was written is given, or is still to be given, once and in order. -/
def Exact (s : State) : Prop := s.written = s.yielded ++ eventsOf s.unread

/-- The step is safe: a line that is appended is a triple, and the reader is not between
reading and truncating; the reader is not abandoned. -/
def Safe (s : State) : Action → Prop
  | .append l => l.triple?.isSome = true ∧ ∀ maxTry atYield rest,
      s.reader ≠ .reading maxTry atYield rest
  | .abandon => False
  | _ => True

/-- Each step of a run is safe. -/
def SafeRun : State → List Action → Prop
  | _, [] => True
  | s, a :: as => Safe s a ∧ ∀ s', step s a = some s' → SafeRun s' as

/-- What the reader does alone. -/
def Action.isRead : Action → Bool
  | .append _ => false
  | .abandon => false
  | _ => true

/-- The reader alone can give all the events that were written. -/
def Deliverable (s : State) : Prop :=
  ∃ as s', as.all Action.isRead = true ∧ run s as = some s' ∧ s'.yielded = s.written

/-! ## One step -/

/-- Each event is given once, and no line is malformed. -/
structure Invariant (s : State) : Prop where
  exact : Exact s
  file : ∀ l ∈ s.file.getD [], l.triple?.isSome = true
  unread : ∀ l ∈ s.unread, l.triple?.isSome = true

theorem eventsOf_append (ls ls' : List Line) : eventsOf (ls ++ ls') = eventsOf ls ++ eventsOf ls' :=
  List.filterMap_append

theorem eventsOf_triple (t : Triple) (ls : List Line) :
    eventsOf (.triple t :: ls) = t :: eventsOf ls := rfl

theorem invariant_initial : Invariant State.initial := ⟨rfl, nofun, nofun⟩

/-- **A safe step keeps the invariant.** -/
theorem Invariant.of_step {s s' : State} {a : Action} (h : Invariant s) (hsafe : Safe s a)
    (hstep : step s a = some s') : Invariant s' := by
  obtain ⟨file, reader, written, yielded⟩ := s
  cases a with
  | append l =>
    obtain ⟨hl, hreader⟩ := hsafe
    cases hstep
    have hfile : ∀ l' ∈ file.getD [] ++ [l], l'.triple?.isSome = true := by
      intro l' hl'
      obtain hl' | hl' := List.mem_append.mp hl'
      · exact h.file l' hl'
      · rw [List.mem_singleton.mp hl']
        exact hl
    cases reader with
    | reading maxTry atYield rest => exact absurd rfl (hreader maxTry atYield rest)
    | idle =>
      refine ⟨?_, hfile, hfile⟩
      have hexact : written = yielded ++ eventsOf (file.getD []) := h.exact
      change written ++ eventsOf [l] = yielded ++ eventsOf (file.getD [] ++ [l])
      rw [eventsOf_append, hexact, List.append_assoc]
    | trying maxTry =>
      refine ⟨?_, hfile, hfile⟩
      have hexact : written = yielded ++ eventsOf (file.getD []) := h.exact
      change written ++ eventsOf [l] = yielded ++ eventsOf (file.getD [] ++ [l])
      rw [eventsOf_append, hexact, List.append_assoc]
  | start =>
    match reader, h, hstep with
    | .idle, h, rfl => exact ⟨h.exact, h.file, h.unread⟩
  | readlines =>
    match reader, file, h, hstep with
    | .trying (maxTry + 1), some ls, h, rfl => exact ⟨h.exact, h.file, h.unread⟩
    | .trying (maxTry + 1), none, h, rfl => exact ⟨h.exact, h.file, h.unread⟩
  | next =>
    match reader, h, hstep with
    | .reading maxTry atYield (.triple t :: rest), h, rfl =>
      refine ⟨?_, h.file, fun l hl => h.unread l (List.mem_cons_of_mem _ hl)⟩
      have hexact : written = yielded ++ eventsOf (.triple t :: rest) := h.exact
      change written = yielded ++ [t] ++ eventsOf rest
      rw [hexact, eventsOf_triple, List.append_assoc, List.singleton_append]
    | .reading maxTry atYield (.malformed :: rest), h, rfl =>
      cases h.unread .malformed List.mem_cons_self
  | truncate =>
    match reader, h, hstep with
    | .reading maxTry atYield [], h, rfl => exact ⟨h.exact, nofun, nofun⟩
  | giveUp =>
    match reader, h, hstep with
    | .trying 0, h, rfl => exact ⟨h.exact, h.file, h.unread⟩
  | abandon => exact hsafe.elim

/-! ## Runs -/

theorem Invariant.of_run {s s' : State} {as : List Action} (h : Invariant s) (hsafe : SafeRun s as)
    (hrun : run s as = some s') : Invariant s' := by
  induction as generalizing s with
  | nil =>
    cases hrun
    exact h
  | cons a as ih =>
    obtain ⟨s'', hstep, hrest⟩ := Option.bind_eq_some_iff.mp hrun
    exact ih (h.of_step hsafe.1 hstep) (hsafe.2 s'' hstep) hrest

/-- The reader gives the lines that it has read. -/
theorem deliverable_of_reading {s : State} (h : Invariant s) {maxTry : ℕ} {atYield : Bool}
    {rest : List Line} (hr : s.reader = .reading maxTry atYield rest) : Deliverable s := by
  induction rest generalizing s atYield with
  | nil =>
    have hexact := h.exact
    rw [Exact, State.unread, hr] at hexact
    exact ⟨[], s, rfl, rfl, by rw [hexact]; exact (List.append_nil _).symm⟩
  | cons l rest ih =>
    have hunread := h.unread
    rw [State.unread, hr] at hunread
    cases l with
    | malformed => cases hunread .malformed List.mem_cons_self
    | triple t =>
      have hstep : step s .next = some { s with
          reader := .reading maxTry true rest, yielded := s.yielded ++ [t] } := by
        rw [step, hr]
      obtain ⟨as, s', has, hrun, hy⟩ := ih (h.of_step (a := .next) trivial hstep) rfl
      refine ⟨.next :: as, s', has, ?_, hy⟩
      rw [run, hstep]
      exact hrun

theorem deliverable_of_step {s s' : State} {a : Action} (ha : a.isRead = true)
    (hstep : step s a = some s') (hw : s'.written = s.written) (h : Deliverable s') :
    Deliverable s := by
  obtain ⟨as, s'', has, hrun, hy⟩ := h
  refine ⟨a :: as, s'', ?_, ?_, hw ▸ hy⟩
  · rw [List.all_cons, ha, has]
    rfl
  · rw [run, hstep]
    exact hrun

theorem deliverable_of_trying {s : State} (h : Invariant s) {maxTry : ℕ}
    (hr : s.reader = .trying (maxTry + 1)) : Deliverable s := by
  cases hf : s.file with
  | none =>
    have hexact := h.exact
    rw [Exact, State.unread, hr, hf] at hexact
    exact ⟨[], s, rfl, rfl, by rw [hexact]; exact (List.append_nil _).symm⟩
  | some ls =>
    have hstep : step s .readlines = some { s with reader := .reading maxTry false ls } := by
      rw [step, hr, hf]
    exact deliverable_of_step rfl hstep rfl (deliverable_of_reading
      (h.of_step (a := .readlines) trivial hstep) rfl)

theorem deliverable_of_idle {s : State} (h : Invariant s) (hr : s.reader = .idle) :
    Deliverable s := by
  have hstep : step s .start = some { s with reader := .trying 3 } := by rw [step, hr]
  exact deliverable_of_step rfl hstep rfl (deliverable_of_trying
    (h.of_step (a := .start) trivial hstep) rfl)

theorem Invariant.deliverable {s : State} (h : Invariant s) : Deliverable s := by
  cases hr : s.reader with
  | idle => exact deliverable_of_idle h hr
  | reading maxTry atYield rest => exact deliverable_of_reading h hr
  | trying maxTry =>
    cases maxTry with
    | succ maxTry => exact deliverable_of_trying h hr
    | zero =>
      have hstep : step s .giveUp = some { s with reader := .idle } := by
        simp only [step, hr]
      exact deliverable_of_step rfl hstep rfl (deliverable_of_idle
        (h.of_step (a := .giveUp) trivial hstep) rfl)

/-- **In a run whose steps are safe, each event that is written is given exactly once**: in each
state it was given once or is still to be given once, and the reader can give it. -/
theorem delivered_of_safe {as : List Action} {s : State} (hsafe : SafeRun State.initial as)
    (hrun : run State.initial as = some s) : Exact s ∧ Deliverable s := by
  have h := invariant_initial.of_run hsafe hrun
  exact ⟨h.exact, h.deliverable⟩

/-- The event of a file. -/
def sizeEvent (n : ℤ) : Triple := ⟨fileNamed "/tmp/a", "size".toList, .literal (.number n)⟩

/-- Two events are written, and read. -/
theorem delivered_of_safe_two :
    SafeRun State.initial [.append (.triple (sizeEvent 1)), .append (.triple (sizeEvent 2)), .start,
        .readlines, .next, .next, .truncate] ∧
      Exact ⟨some [], .idle, [sizeEvent 1, sizeEvent 2], [sizeEvent 1, sizeEvent 2]⟩ ∧
      Deliverable ⟨some [], .idle, [sizeEvent 1, sizeEvent 2], [sizeEvent 1, sizeEvent 2]⟩ := by
  have hsafe : SafeRun State.initial [.append (.triple (sizeEvent 1)),
      .append (.triple (sizeEvent 2)), .start, .readlines, .next, .next, .truncate] := by
    refine ⟨⟨rfl, nofun⟩, ?_⟩
    rintro _ ⟨⟩
    refine ⟨⟨rfl, nofun⟩, ?_⟩
    rintro _ ⟨⟩
    refine ⟨trivial, ?_⟩
    rintro _ ⟨⟩
    refine ⟨trivial, ?_⟩
    rintro _ ⟨⟩
    refine ⟨trivial, ?_⟩
    rintro _ ⟨⟩
    refine ⟨trivial, ?_⟩
    rintro _ ⟨⟩
    exact ⟨trivial, fun _ _ => trivial⟩
  exact ⟨hsafe, delivered_of_safe hsafe rfl⟩

/-- An event that is appended between reading and truncating is lost. -/
theorem appended_not_exact : ¬ ∀ as s, run State.initial as = some s → Exact s := by
  intro h
  have hrun : run State.initial [.append (.triple (sizeEvent 1)), .start, .readlines,
      .append (.triple (sizeEvent 2)), .next, .truncate] =
        some ⟨some [], .idle, [sizeEvent 1, sizeEvent 2], [sizeEvent 1]⟩ := rfl
  have hlen := congrArg List.length (h _ _ hrun)
  revert hlen
  decide

end Survol.Events
