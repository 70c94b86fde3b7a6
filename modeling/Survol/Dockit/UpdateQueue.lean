import Survol.Lib.Transitions
import Mathlib.Logic.Function.Basic

/-!
# The queue of the updates

The updates of the objects are sent to a server by a thread of their own. Any thread adds a triple
to a list under a lock, and the thread takes the whole list under the same lock, releases it, and
then sends what it has taken in one request. When a request fails, the thread ends, and no triple
is added any more, but for those whose test was made before. When the list cannot be dumped, as with
bytes that are not text, the thread ends inside the lock, which is never released.

## Main definitions

* `Stage`, `Sender` — where a thread is in `AddDataToSend`, and where the sender is in `run`.
* `State`, `Action`, `step` — `HttpTriplesClient` and its threads.
* `Accounted` — one thread at most is in the lock, and each triple that was added is in exactly
  one place, in the order in which it was added.

## Main results

* `accounted_of_run` — what holds in every reachable state.
* `silent_of_failed` — what a failed request leaves.
* `drains` — while no request has failed, what was added can still be received, if it can be dumped.
* `stuck_of_died` — what a list that cannot be dumped leaves.
-/

open Transitions

namespace Survol.Dockit.HttpTriplesClient

variable {ι τ : Type}

/-- Who has `m_sharedLock`. -/
inductive Holder (ι : Type) where
  | caller (i : ι)
  | sender
  deriving DecidableEq

/-- Where a thread is in `AddDataToSend`. -/
inductive Stage (τ : Type) where
  /-- It is elsewhere. -/
  | out
  /-- It has read that the client is valid, and waits for the lock. -/
  | tested (jsonTriple : τ)
  | locked (jsonTriple : τ)
  /-- The triple is in the list, and the lock is still held. -/
  | appended

/-- Where the sender is in `run`. -/
inductive Sender (τ : Type) where
  | asleep
  | locked
  /-- The list is dumped to `strToSend`. -/
  | dumped (strToSend : List τ)
  /-- The list is empty, and the lock is still held; nothing to send is the empty list. -/
  | cleared (strToSend : List τ)
  | sending (strToSend : List τ)
  /-- An exception has ended the thread. -/
  | stopped
  /-- `json.dumps` has ended the thread, which still has the lock. -/
  | died

/-- What becomes of a request. -/
inductive Answer where
  | done
  /-- The server has not got the request. -/
  | lostRequest
  /-- The server has got it, but reading the answer raises an exception. -/
  | lostAnswer

/-- The client and its threads, with what the server has received, and what was done so far: the
triples whose test was passed, those that were added to the list, and those of a lost request. -/
structure State (ι τ : Type) where
  lock : Option (Holder ι)
  listTriples : List τ
  valid : Bool
  stage : ι → Stage τ
  sender : Sender τ
  server : List (List τ)
  called : List (ι × τ)
  added : List (ι × τ)
  dropped : List τ

/-- After the constructor. -/
def State.init : State ι τ where
  lock := none
  listTriples := []
  valid := true
  stage := fun _ => .out
  sender := .asleep
  server := []
  called := []
  added := []
  dropped := []

/-- What a thread does next. -/
inductive Action (ι τ : Type) where
  /-- A thread calls `AddDataToSend`, and makes the test. -/
  | call (i : ι) (jsonTriple : τ)
  | acquire (i : ι)
  | append (i : ι)
  | release (i : ι)
  /-- The sender acquires the lock, after its sleep. -/
  | wake
  | dump
  | clear
  | unlock
  | answer (a : Answer)

/-- An empty list is not dumped, and a list is dumped when all its triples can be. -/
def Sender.afterDump (dumps : τ → Bool) : List τ → Sender τ
  | [] => .cleared []
  | l => if l.all dumps then .dumped l else .died

/-- The sender sends what it has taken, if anything. -/
def Sender.afterUnlock : List τ → Sender τ
  | [] => .asleep
  | l => .sending l

/-- The request is sent. -/
def State.answered (s : State ι τ) (strToSend : List τ) : Answer → State ι τ
  | .done => { s with server := s.server ++ [strToSend], sender := .asleep }
  | .lostRequest => { s with dropped := strToSend, valid := false, sender := .stopped }
  | .lostAnswer =>
    { s with server := s.server ++ [strToSend], valid := false, sender := .stopped }

variable [DecidableEq ι]

/-- A thread goes on. -/
def State.goto (s : State ι τ) (i : ι) (stage : Stage τ) : State ι τ :=
  { s with stage := Function.update s.stage i stage }

/-- One step, if it can be done. The address of the server is given, and `dumps` tells the triples
that `json.dumps` accepts. -/
def step (dumps : τ → Bool) (s : State ι τ) : Action ι τ → Option (State ι τ)
  | .call i t => match s.stage i with
    | .out =>
      if s.valid then some { s.goto i (.tested t) with called := s.called ++ [(i, t)] } else some s
    | _ => none
  | .acquire i => match s.stage i, s.lock with
    | .tested t, none => some { s.goto i (.locked t) with lock := some (.caller i) }
    | _, _ => none
  | .append i => match s.stage i with
    | .locked t => some { s.goto i .appended with
        listTriples := s.listTriples ++ [t], added := s.added ++ [(i, t)] }
    | _ => none
  | .release i => match s.stage i with
    | .appended => some { s.goto i .out with lock := none }
    | _ => none
  | .wake => match s.sender, s.lock with
    | .asleep, none => some { s with lock := some .sender, sender := .locked }
    | _, _ => none
  | .dump => match s.sender with
    | .locked => some { s with sender := .afterDump dumps s.listTriples }
    | _ => none
  | .clear => match s.sender with
    | .dumped l => some { s with listTriples := [], sender := .cleared l }
    | _ => none
  | .unlock => match s.sender with
    | .cleared l => some { s with lock := none, sender := .afterUnlock l }
    | _ => none
  | .answer a => match s.sender with
    | .sending l => some (s.answered l a)
    | _ => none

/-! ## The invariant -/

/-- The thread is between acquiring and releasing the lock. -/
def Stage.inLock : Stage τ → Bool
  | .locked _ => true
  | .appended => true
  | _ => false

/-- The sender is between acquiring and releasing the lock. -/
def Sender.inLock : Sender τ → Bool
  | .locked => true
  | .dumped _ => true
  | .cleared _ => true
  | .died => true
  | _ => false

/-- The triple whose test was passed, and that is not in the list yet. -/
def Stage.waiting : Stage τ → List τ
  | .tested t => [t]
  | .locked t => [t]
  | _ => []

/-- What the sender has taken out of the list. -/
def Sender.inHand : Sender τ → List τ
  | .cleared l => l
  | .sending l => l
  | _ => []

/-- The triples of a thread. -/
def ofThread (i : ι) (l : List (ι × τ)) : List τ := (l.filter (·.1 = i)).map Prod.snd

@[simp] theorem ofThread_nil (i : ι) : ofThread i ([] : List (ι × τ)) = [] := rfl

@[simp] theorem ofThread_concat (i j : ι) (t : τ) (l : List (ι × τ)) :
    ofThread i (l ++ [(j, t)]) = ofThread i l ++ if j = i then [t] else [] := by
  by_cases h : j = i <;> simp [ofThread, List.filter_append, h]

/-- What holds in every reachable state. -/
structure Inv (s : State ι τ) : Prop where
  caller : ∀ i, (s.stage i).inLock = true ↔ s.lock = some (.caller i)
  sender : s.sender.inLock = true ↔ s.lock = some .sender
  dumped : ∀ l, s.sender = .dumped l → l = s.listTriples
  added : s.added.map Prod.snd =
    s.server.flatten ++ s.dropped ++ s.sender.inHand ++ s.listTriples
  order : ∀ i, ofThread i s.called = ofThread i s.added ++ (s.stage i).waiting
  failed : s.sender = .stopped ↔ s.valid = false
  kept : s.valid = true → s.dropped = []

theorem inv_init : Inv (State.init : State ι τ) where
  caller i := by simp [State.init, Stage.inLock]
  sender := by simp [State.init, Sender.inLock]
  dumped l h := by cases h
  added := rfl
  order i := rfl
  failed := by simp [State.init]
  kept _ := rfl

/-- One thread at most is between acquiring and releasing the lock, every triple that was added
was received, lost, taken by the sender, or is still in the list, in this order, and each thread
has added its triples in the order of its calls. -/
structure Accounted (s : State ι τ) : Prop where
  exclusive : ∀ i, (s.stage i).inLock = true →
    s.sender.inLock = false ∧ ∀ j, (s.stage j).inLock = true → j = i
  added : s.added.map Prod.snd =
    s.server.flatten ++ s.dropped ++ s.sender.inHand ++ s.listTriples
  order : ∀ i, ofThread i s.called = ofThread i s.added ++ (s.stage i).waiting
  kept : s.valid = true → s.dropped = []

theorem Inv.accounted {s : State ι τ} (h : Inv s) : Accounted s where
  exclusive i hi := by
    have hlock := (h.caller i).mp hi
    refine ⟨?_, fun j hj => ?_⟩
    · rw [Bool.eq_false_iff]
      intro hsender
      cases hlock.symm.trans (h.sender.mp hsender)
    · cases hlock.symm.trans ((h.caller j).mp hj)
      rfl
  added := h.added
  order := h.order
  kept := h.kept

/-! ## One step -/

section
variable {dumps : τ → Bool} {s s' : State ι τ} {i : ι} {t : τ}

theorem stage_goto (s : State ι τ) (i j : ι) (stage : Stage τ) :
    (s.goto i stage).stage j = if j = i then stage else s.stage j :=
  Function.update_apply _ _ _ _

/-- A thread that waits for the lock or leaves it does not change who is in it, but itself. -/
theorem inv_goto (h : Inv s) (hsame : s'.sender = s.sender ∧ s'.server = s.server ∧
      s'.dropped = s.dropped ∧ s'.valid = s.valid)
    (hcaller : ∀ j, (s'.stage j).inLock = true ↔ s'.lock = some (.caller j))
    (hlock : s'.lock = some .sender ↔ s.lock = some .sender)
    (hdumped : s.lock = some .sender → s'.listTriples = s.listTriples)
    (hadded : ∃ l, s'.added.map Prod.snd = s.added.map Prod.snd ++ l ∧
      s'.listTriples = s.listTriples ++ l)
    (horder : ∀ j, ofThread j s'.called = ofThread j s'.added ++ (s'.stage j).waiting) :
    Inv s' := by
  obtain ⟨hsender, hserver, hdropped, hvalid⟩ := hsame
  obtain ⟨l, hmap, hlist⟩ := hadded
  constructor
  · exact hcaller
  · rw [hsender, hlock]
    exact h.sender
  · intro l' hl'
    rw [hsender] at hl'
    have hin : s.lock = some .sender := h.sender.mp (by rw [hl']; rfl)
    rw [hdumped hin]
    exact h.dumped l' hl'
  · rw [hmap, hserver, hdropped, hsender, hlist, h.added]
    simp
  · exact horder
  · rw [hsender, hvalid]
    exact h.failed
  · rw [hvalid, hdropped]
    exact h.kept

/-- The invariant of one thread goes over to the next stage of it. -/
theorem forall_goto {P : ι → Stage τ → Prop} {stage : Stage τ} (hi : P i stage)
    (h : ∀ j, j ≠ i → P j (s.stage j)) (j : ι) : P j ((s.goto i stage).stage j) := by
  rw [stage_goto]
  split
  · rename_i hj
    rw [hj]
    exact hi
  · rename_i hj
    exact h j hj

theorem inv_call (h : Inv s) (hstage : s.stage i = .out) :
    Inv { s.goto i (.tested t) with called := s.called ++ [(i, t)] } := by
  refine inv_goto h ⟨rfl, rfl, rfl, rfl⟩ ?_ Iff.rfl (fun _ => rfl) ⟨[], by simp [State.goto]⟩ ?_
  · refine forall_goto (P := fun j st => st.inLock = true ↔ s.lock = some (.caller j)) ?_
      fun j _ => h.caller j
    rw [← h.caller i, hstage]
    rfl
  · refine forall_goto (P := fun j st =>
      ofThread j (s.called ++ [(i, t)]) = ofThread j s.added ++ st.waiting) ?_ fun j hj => ?_
    · rw [ofThread_concat, h.order i, hstage, if_pos rfl]
      simp [Stage.waiting]
    · rw [ofThread_concat, h.order j, if_neg hj.symm, List.append_nil]

theorem inv_acquire (h : Inv s) (hstage : s.stage i = .tested t) (hfree : s.lock = none) :
    Inv { s.goto i (.locked t) with lock := some (.caller i) } := by
  refine inv_goto h ⟨rfl, rfl, rfl, rfl⟩ ?_ (by simp [hfree]) (fun _ => rfl)
    ⟨[], by simp [State.goto]⟩ ?_
  · refine forall_goto
      (P := fun j st => st.inLock = true ↔ some (Holder.caller i) = some (.caller j))
      (by simp [Stage.inLock]) fun j hj => ?_
    rw [h.caller j, hfree]
    simp [hj.symm]
  · refine forall_goto (P := fun j st =>
      ofThread j s.called = ofThread j s.added ++ st.waiting) ?_ fun j _ => h.order j
    rw [h.order i, hstage]
    rfl

theorem inv_append (h : Inv s) (hstage : s.stage i = .locked t) :
    Inv { s.goto i .appended with
      listTriples := s.listTriples ++ [t], added := s.added ++ [(i, t)] } := by
  have hlock : s.lock = some (.caller i) := (h.caller i).mp (by rw [hstage]; rfl)
  refine inv_goto h ⟨rfl, rfl, rfl, rfl⟩ ?_ Iff.rfl ?_ ⟨[t], by simp⟩ ?_
  · refine forall_goto (P := fun j st => st.inLock = true ↔ s.lock = some (.caller j)) ?_
      fun j _ => h.caller j
    rw [hlock]
    simp [Stage.inLock]
  · intro hsender
    cases hlock.symm.trans hsender
  · refine forall_goto (P := fun j st =>
      ofThread j s.called = ofThread j (s.added ++ [(i, t)]) ++ st.waiting) ?_ fun j hj => ?_
    · rw [ofThread_concat, h.order i, hstage, if_pos rfl]
      simp [Stage.waiting]
    · rw [ofThread_concat, h.order j, if_neg hj.symm, List.append_nil]

theorem inv_release (h : Inv s) (hstage : s.stage i = .appended) :
    Inv { s.goto i .out with lock := none } := by
  have hlock : s.lock = some (.caller i) := (h.caller i).mp (by rw [hstage]; rfl)
  refine inv_goto h ⟨rfl, rfl, rfl, rfl⟩ ?_ (by simp [hlock]) (fun _ => rfl)
    ⟨[], by simp [State.goto]⟩ ?_
  · refine forall_goto (P := fun j st => st.inLock = true ↔ none = some (Holder.caller j))
      (by simp [Stage.inLock]) fun j hj => ?_
    rw [h.caller j, hlock]
    simp [hj.symm]
  · refine forall_goto (P := fun j st =>
      ofThread j s.called = ofThread j s.added ++ st.waiting) ?_ fun j _ => h.order j
    rw [h.order i, hstage]
    rfl

/-- The steps of the sender leave the other threads where they are. -/
theorem inv_sender (h : Inv s)
    (hsame : s'.stage = s.stage ∧ s'.called = s.called ∧ s'.added = s.added)
    (hlock : ∀ i, s'.lock = some (.caller i) ↔ s.lock = some (.caller i))
    (hsender : s'.sender.inLock = true ↔ s'.lock = some .sender)
    (hdumped : ∀ l, s'.sender = .dumped l → l = s'.listTriples)
    (hplaces : s'.server.flatten ++ s'.dropped ++ s'.sender.inHand ++ s'.listTriples =
      s.server.flatten ++ s.dropped ++ s.sender.inHand ++ s.listTriples)
    (hfailed : s'.sender = .stopped ↔ s'.valid = false)
    (hkept : s'.valid = true → s'.dropped = []) : Inv s' := by
  obtain ⟨hstage, hcalled, hadded⟩ := hsame
  constructor
  · intro i
    rw [hstage, hlock]
    exact h.caller i
  · exact hsender
  · exact hdumped
  · rw [hadded, hplaces]
    exact h.added
  · intro i
    rw [hcalled, hadded, hstage]
    exact h.order i
  · exact hfailed
  · exact hkept

/-- No request has failed while the sender runs. -/
theorem Inv.valid (h : Inv s) (hrun : s.sender ≠ .stopped) : s.valid = true := by
  rw [← Bool.not_eq_false]
  exact fun hv => hrun (h.failed.mpr hv)

theorem inv_wake (h : Inv s) (hsender : s.sender = .asleep) (hfree : s.lock = none) :
    Inv { s with lock := some .sender, sender := .locked } := by
  refine inv_sender h ⟨rfl, rfl, rfl⟩ (by simp [hfree]) (by simp [Sender.inLock]) (by simp) ?_ ?_
    h.kept
  · rw [hsender]
    rfl
  · simp [h.valid (by simp [hsender])]

theorem inv_dump (h : Inv s) (hsender : s.sender = .locked) :
    Inv { s with sender := .afterDump dumps s.listTriples } := by
  have hlock : s.lock = some .sender := h.sender.mp (by rw [hsender]; rfl)
  have hvalid : s.valid = true := h.valid (by simp [hsender])
  have hafter : Sender.afterDump dumps s.listTriples = .cleared [] ∨
      Sender.afterDump dumps s.listTriples = .dumped s.listTriples ∨
      Sender.afterDump dumps s.listTriples = .died := by
    cases s.listTriples with
    | nil => exact .inl rfl
    | cons t l =>
      rw [Sender.afterDump]
      split
      · exact .inr (.inl rfl)
      · exact .inr (.inr rfl)
      · exact nofun
  obtain hafter | hafter | hafter := hafter <;> rw [hafter]
  · refine inv_sender h ⟨rfl, rfl, rfl⟩ (fun _ => Iff.rfl) (by simp [Sender.inLock, hlock])
      (by simp)
      ?_ (by simp [hvalid]) h.kept
    rw [hsender]
    rfl
  · refine inv_sender h ⟨rfl, rfl, rfl⟩ (fun _ => Iff.rfl) (by simp [Sender.inLock, hlock]) ?_ ?_
      (by simp [hvalid]) h.kept
    · rintro l ⟨⟩
      rfl
    · rw [hsender]
      rfl
  · refine inv_sender h ⟨rfl, rfl, rfl⟩ (fun _ => Iff.rfl) (by simp [Sender.inLock, hlock])
      (by simp) ?_ (by simp [hvalid]) h.kept
    rw [hsender]
    rfl

theorem inv_clear {l : List τ} (h : Inv s) (hsender : s.sender = .dumped l) :
    Inv { s with listTriples := [], sender := .cleared l } := by
  have hlock : s.lock = some .sender := h.sender.mp (by rw [hsender]; rfl)
  refine inv_sender h ⟨rfl, rfl, rfl⟩ (fun _ => Iff.rfl) (by simp [Sender.inLock, hlock]) (by simp)
    ?_ (by simp [h.valid (by simp [hsender])]) h.kept
  rw [hsender, ← h.dumped l hsender]
  simp [Sender.inHand]

theorem inv_unlock {l : List τ} (h : Inv s) (hsender : s.sender = .cleared l) :
    Inv { s with lock := none, sender := .afterUnlock l } := by
  have hlock : s.lock = some .sender := h.sender.mp (by rw [hsender]; rfl)
  have hvalid : s.valid = true := h.valid (by simp [hsender])
  cases l with
  | nil =>
    refine inv_sender h ⟨rfl, rfl, rfl⟩ (by simp [hlock])
      (by simp [Sender.inLock, Sender.afterUnlock])
      (by simp [Sender.afterUnlock]) ?_ (by simp [Sender.afterUnlock, hvalid]) h.kept
    rw [hsender]
    rfl
  | cons t l =>
    refine inv_sender h ⟨rfl, rfl, rfl⟩ (by simp [hlock])
      (by simp [Sender.inLock, Sender.afterUnlock])
      (by simp [Sender.afterUnlock]) ?_ (by simp [Sender.afterUnlock, hvalid]) h.kept
    rw [hsender]
    rfl

theorem inv_answer {l : List τ} (h : Inv s) (hsender : s.sender = .sending l) (a : Answer) :
    Inv (s.answered l a) := by
  have hlock : s.lock ≠ some .sender := by
    intro hl
    have hin := h.sender.mpr hl
    rw [hsender] at hin
    cases hin
  have hvalid : s.valid = true := h.valid (by simp [hsender])
  have hdropped : s.dropped = [] := h.kept hvalid
  have hplaces : s.server.flatten ++ l ++ s.listTriples =
      s.server.flatten ++ s.dropped ++ s.sender.inHand ++ s.listTriples := by
    simp [hsender, hdropped, Sender.inHand]
  cases a with
  | done =>
    refine inv_sender h ⟨rfl, rfl, rfl⟩ (fun _ => Iff.rfl)
      (by simp [Sender.inLock, hlock, State.answered])
      (by simp [State.answered]) ?_ (by simp [State.answered, hvalid]) h.kept
    rw [← hplaces]
    simp [State.answered, hdropped, Sender.inHand]
  | lostRequest =>
    refine inv_sender h ⟨rfl, rfl, rfl⟩ (fun _ => Iff.rfl)
      (by simp [Sender.inLock, hlock, State.answered])
      (by simp [State.answered]) ?_ (by simp [State.answered]) (by simp [State.answered])
    rw [← hplaces]
    simp [State.answered, Sender.inHand]
  | lostAnswer =>
    refine inv_sender h ⟨rfl, rfl, rfl⟩ (fun _ => Iff.rfl)
      (by simp [Sender.inLock, hlock, State.answered])
      (by simp [State.answered]) ?_ (by simp [State.answered]) (by simp [State.answered])
    rw [← hplaces]
    simp [State.answered, hdropped, Sender.inHand]

/-- Each step keeps the invariant. -/
theorem keeps_inv : Keeps (step (ι := ι) dumps) Inv := by
  intro s a s' hstep h
  cases a with
  | call i t =>
    simp only [step] at hstep
    split at hstep
    · rename_i hstage
      split at hstep <;> cases hstep
      · exact inv_call h hstage
      · exact h
    · cases hstep
  | acquire i =>
    simp only [step] at hstep
    split at hstep
    · rename_i hstage hfree
      cases hstep
      exact inv_acquire h hstage hfree
    · cases hstep
  | append i =>
    simp only [step] at hstep
    split at hstep
    · rename_i hstage
      cases hstep
      exact inv_append h hstage
    · cases hstep
  | release i =>
    simp only [step] at hstep
    split at hstep
    · rename_i hstage
      cases hstep
      exact inv_release h hstage
    · cases hstep
  | wake =>
    simp only [step] at hstep
    split at hstep
    · rename_i hsender hfree
      cases hstep
      exact inv_wake h hsender hfree
    · cases hstep
  | dump =>
    simp only [step] at hstep
    split at hstep
    · rename_i hsender
      cases hstep
      exact inv_dump h hsender
    · cases hstep
  | clear =>
    simp only [step] at hstep
    split at hstep
    · rename_i hsender
      cases hstep
      exact inv_clear h hsender
    · cases hstep
  | unlock =>
    simp only [step] at hstep
    split at hstep
    · rename_i hsender
      cases hstep
      exact inv_unlock h hsender
    · cases hstep
  | answer a =>
    simp only [step] at hstep
    split at hstep
    · rename_i hsender
      cases hstep
      exact inv_answer h hsender a
    · cases hstep

/-- In every reachable state, one thread at most is in the lock, and each triple that was added is
in one place, in order. -/
theorem accounted_of_run {as : List (Action ι τ)} (h : run (step dumps) .init as = some s) : Accounted s :=
  (keeps_inv.run h inv_init).accounted

/-- The numbers that can be dumped. -/
def dumpsSmall (n : ℕ) : Bool := n < 10

/-- Two threads: a request is answered, the next one is not. -/
def twoThreads : List (Action Bool ℕ) :=
  [.call true 1, .call false 2, .acquire false, .append false, .release false, .wake, .dump, .clear,
    .unlock, .acquire true, .append true, .answer .done, .release true, .call false 3, .wake, .dump,
    .clear, .unlock, .call true 4, .acquire false, .answer .lostAnswer]

theorem accounted_of_run_twoThreads :
    ∃ s, run (step dumpsSmall) (State.init : State Bool ℕ) twoThreads = some s ∧ Accounted s := by
  have hrun : (run (step dumpsSmall) (State.init : State Bool ℕ) twoThreads).isSome := rfl
  obtain ⟨s, hs⟩ := Option.isSome_iff_exists.mp hrun
  exact ⟨s, hs, accounted_of_run hs⟩

/-! ## After a failure -/

/-- Once a request has failed, a step lets no call pass its test, and sends nothing. -/
theorem silent_step (a : Action ι τ) (hstep : step dumps s a = some s') (h : Inv s)
    (hfail : s.valid = false) :
    s'.valid = false ∧ s'.server = s.server ∧ s'.called = s.called := by
  have hstopped : s.sender = .stopped := h.failed.mpr hfail
  cases a with
  | call i t =>
    simp only [step, hfail] at hstep
    split at hstep <;> cases hstep
    exact ⟨hfail, rfl, rfl⟩
  | acquire i =>
    simp only [step] at hstep
    split at hstep <;> cases hstep
    exact ⟨hfail, rfl, rfl⟩
  | append i =>
    simp only [step] at hstep
    split at hstep <;> cases hstep
    exact ⟨hfail, rfl, rfl⟩
  | release i =>
    simp only [step] at hstep
    split at hstep <;> cases hstep
    exact ⟨hfail, rfl, rfl⟩
  | wake => simp [step, hstopped] at hstep
  | dump => simp [step, hstopped] at hstep
  | clear => simp [step, hstopped] at hstep
  | unlock => simp [step, hstopped] at hstep
  | answer a => simp [step, hstopped] at hstep

theorem Stage.length_waiting_le (stage : Stage τ) : stage.waiting.length ≤ 1 := by
  cases stage <;> simp [Stage.waiting]

/-- Once a request has failed, the server receives nothing any more, no call passes its test, and
each thread adds one triple at most, which waited for the lock. -/
theorem silent_of_failed {as bs : List (Action ι τ)} (h : run (step dumps) .init as = some s)
    (hfail : s.valid = false) (h' : run (step dumps) s bs = some s') :
    s'.server = s.server ∧ s'.called = s.called ∧
      ∀ i, (ofThread i s'.added).length ≤ (ofThread i s.added).length + 1 := by
  have hinv : Inv s := keeps_inv.run h inv_init
  have hkeeps : Keeps (step (ι := ι) dumps) fun u =>
      Inv u ∧ u.valid = false ∧ u.server = s.server ∧ u.called = s.called := by
    refine keeps_inv.and fun u a u' hstep hu hsilent => ?_
    obtain ⟨hv, hserver, hcalled⟩ := silent_step a hstep hu hsilent.1
    exact ⟨hv, hserver.trans hsilent.2.1, hcalled.trans hsilent.2.2⟩
  obtain ⟨hinv', -, hserver, hcalled⟩ := hkeeps.run h' ⟨hinv, hfail, rfl, rfl⟩
  refine ⟨hserver, hcalled, fun i => ?_⟩
  have hold := congrArg List.length (hinv.order i)
  have hnew := congrArg List.length (hinv'.order i)
  have hle := (s.stage i).length_waiting_le
  rw [hcalled] at hnew
  rw [List.length_append] at hold hnew
  omega

/-- The thread that waited for the lock goes on, and calls again. -/
def afterFailure : List (Action Bool ℕ) :=
  [.append false, .release false, .acquire true, .append true, .release true, .call true 5]

theorem silent_of_failed_twoThreads : ∃ s s' : State Bool ℕ,
    run (step dumpsSmall) .init twoThreads = some s ∧
      run (step dumpsSmall) s afterFailure = some s' ∧
      s'.server = s.server ∧ s'.called = s.called ∧
        ∀ i, (ofThread i s'.added).length ≤ (ofThread i s.added).length + 1 := by
  have hrun : (run (step dumpsSmall) State.init (twoThreads ++ afterFailure)).isSome := rfl
  have hvalid : (run (step dumpsSmall) State.init twoThreads).map State.valid = some false := rfl
  obtain ⟨s, hs, hfail⟩ := Option.map_eq_some_iff.mp hvalid
  rw [run_append, hs, Option.bind_some] at hrun
  obtain ⟨s', hs'⟩ := Option.isSome_iff_exists.mp hrun
  exact ⟨s, s', hs, hs', silent_of_failed hs hfail hs'⟩

/-! ## While no request has failed -/

/-- The threads in the lock leave it, and the requests are answered: no call begins, no request
fails, and no other thread acquires the lock. -/
def Action.GoesOn : Action ι τ → Prop
  | .call _ _ => False
  | .acquire _ => False
  | .answer .lostRequest => False
  | .answer .lostAnswer => False
  | _ => True

/-- What was added stays added. -/
theorem keeps_added (l : List (ι × τ)) :
    Keeps (step (ι := ι) dumps) fun s => l <+: s.added := by
  intro s a s' hstep h
  cases a with
  | append i =>
    simp only [step] at hstep
    split at hstep <;> cases hstep
    exact h.trans (List.prefix_append _ _)
  | answer a =>
    simp only [step] at hstep
    split at hstep <;> cases hstep
    cases a <;> exact h
  | call i t =>
    simp only [step] at hstep
    split at hstep
    · split at hstep <;> cases hstep <;> exact h
    · cases hstep
  | _ =>
    simp only [step] at hstep
    split at hstep <;> cases hstep
    exact h

/-- What was called stays called, and no more, while the threads go on. -/
theorem called_of_reaches (h : Reaches (step dumps) Action.GoesOn s s') : s'.called = s.called := by
  induction h with
  | refl => rfl
  | tail _ hstep ih =>
    obtain ⟨a, ha, hstep⟩ := hstep
    rw [← ih]
    cases a with
    | call i t => exact ha.elim
    | answer a =>
      simp only [step] at hstep
      split at hstep <;> cases hstep
      cases a <;> rfl
    | _ =>
      simp only [step] at hstep
      split at hstep <;> cases hstep
      rfl

/-- Every triple whose test was passed can be dumped. -/
def State.Dumpable (dumps : τ → Bool) (s : State ι τ) : Prop :=
  ∀ p ∈ s.called, dumps p.2 = true

theorem State.Dumpable.of_reaches (h : s.Dumpable dumps)
    (hreach : Reaches (step dumps) Action.GoesOn s s') : s'.Dumpable dumps := by
  rw [State.Dumpable, called_of_reaches hreach]
  exact h

/-- The triples of the list were called. -/
theorem Inv.dumpable_list (h : Inv s) (hdumps : s.Dumpable dumps) :
    s.listTriples.all dumps = true := by
  rw [List.all_eq_true]
  intro t ht
  have hadded : t ∈ s.added.map Prod.snd := by
    rw [h.added]
    exact List.mem_append_right _ ht
  obtain ⟨⟨i, t⟩, hp, rfl⟩ := List.mem_map.mp hadded
  have hthread : t ∈ ofThread i s.called := by
    rw [h.order i]
    exact List.mem_append_left _
      (List.mem_map.mpr ⟨(i, t), List.mem_filter.mpr ⟨hp, by simp⟩, rfl⟩)
  obtain ⟨q, hq, hqt⟩ := List.mem_map.mp hthread
  exact hqt ▸ hdumps q (List.mem_filter.mp hq).1

/-- The thread has died of a list that it still has. -/
def DiedOf (dumps : τ → Bool) (s : State ι τ) : Prop :=
  s.sender = .died → s.listTriples.all dumps = false

theorem keeps_diedOf : Keeps (step (ι := ι) dumps) fun s => Inv s ∧ DiedOf dumps s := by
  refine keeps_inv.and fun s a s' hstep h hdied hsender => ?_
  have hout : s.sender = .died → ∀ i, (s.stage i).inLock = false := by
    intro hsender i
    rw [Bool.eq_false_iff]
    intro hin
    have hlock := h.sender.mp (by rw [hsender]; rfl)
    cases ((h.caller i).mp hin).symm.trans hlock
  cases a with
  | dump =>
    simp only [step] at hstep
    split at hstep <;> cases hstep
    cases hl : s.listTriples with
    | nil =>
      rw [hl] at hsender
      cases hsender
    | cons t l =>
      rw [hl] at hsender
      simp only [Sender.afterDump] at hsender
      split at hsender
      · cases hsender
      · rename_i hall
        exact Bool.eq_false_iff.mpr hall
  | append i =>
    simp only [step] at hstep
    split at hstep
    · rename_i hstage
      cases hstep
      have hin := hout hsender i
      rw [hstage] at hin
      cases hin
    · cases hstep
  | call i t =>
    simp only [step] at hstep
    split at hstep
    · split at hstep <;> cases hstep <;> exact hdied hsender
    · cases hstep
  | acquire i =>
    simp only [step] at hstep
    split at hstep <;> cases hstep
    exact hdied hsender
  | release i =>
    simp only [step] at hstep
    split at hstep <;> cases hstep
    exact hdied hsender
  | answer a =>
    simp only [step] at hstep
    split at hstep <;> cases hstep
    cases a <;> cases hsender
  | unlock =>
    simp only [step] at hstep
    split at hstep
    · rename_i l _
      cases hstep
      cases l <;> cases hsender
    · cases hstep
  | _ =>
    simp only [step] at hstep
    split at hstep <;> cases hstep
    cases hsender

/-- The sender sleeps, and the lock is free. -/
def State.AtRest (s : State ι τ) : Prop := s.lock = none ∧ s.sender = .asleep ∧ s.valid = true

/-- The sender sends what it has taken. -/
theorem reaches_sending {l : List τ} (hsender : s.sender = .cleared l) (hvalid : s.valid = true) :
    ∃ s', Reaches (step dumps) Action.GoesOn s s' ∧ s'.AtRest ∧ s'.listTriples = s.listTriples := by
  cases l with
  | nil =>
    refine ⟨{ s with lock := none, sender := .asleep }, ?_, ⟨rfl, rfl, hvalid⟩, rfl⟩
    exact .of_step (a := .unlock) trivial (by simp [step, hsender, Sender.afterUnlock])
  | cons t l =>
    refine ⟨{ s with lock := none, server := s.server ++ [t :: l], sender := .asleep }, ?_,
      ⟨rfl, rfl, hvalid⟩, rfl⟩
    refine .head (a := .unlock) trivial (by simp [step, hsender, Sender.afterUnlock]; rfl) ?_
    exact .of_step (a := .answer .done) trivial rfl

theorem afterDump_of_all {l : List τ} (hne : l ≠ []) (hall : l.all dumps = true) :
    Sender.afterDump dumps l = .dumped l := by
  cases l with
  | nil => exact absurd rfl hne
  | cons t l =>
    rw [Sender.afterDump, if_pos hall]
    exact hne

theorem reaches_of_locked (hsender : s.sender = .locked) (hvalid : s.valid = true)
    (hall : s.listTriples.all dumps = true) :
    ∃ s', Reaches (step dumps) Action.GoesOn s s' ∧ s'.AtRest ∧ s'.listTriples = [] := by
  cases hl : s.listTriples with
  | nil =>
    obtain ⟨s', hreach, hrest, hlist⟩ :=
      reaches_sending (s := { s with sender := .cleared [] }) rfl hvalid
    refine ⟨s', ?_, hrest, hlist.trans hl⟩
    exact .head (a := .dump) trivial (by simp [step, hsender, hl, Sender.afterDump]) hreach
  | cons t l =>
    obtain ⟨s', hreach, hrest, hlist⟩ := reaches_sending
      (s := { s with listTriples := [], sender := .cleared (t :: l) }) rfl hvalid
    refine ⟨s', ?_, hrest, hlist⟩
    have hdump : step dumps s .dump = some { s with sender := .dumped s.listTriples } := by
      simp only [step, hsender, afterDump_of_all (hl ▸ List.cons_ne_nil t l) hall]
    refine .head (a := .dump) trivial hdump ?_
    exact .head (a := .clear) trivial (by simp only [step, hl]) hreach

/-- The sender comes to its rest, when no other thread has the lock. -/
theorem reaches_rest_of_sender (h : Inv s) (hvalid : s.valid = true)
    (hdied : DiedOf dumps s) (hdumps : s.Dumpable dumps)
    (hfree : ∀ i, s.lock ≠ some (.caller i)) :
    ∃ s', Reaches (step dumps) Action.GoesOn s s' ∧ s'.AtRest := by
  have hlock (hin : s.sender.inLock = false) : s.lock = none := by
    cases hl : s.lock with
    | none => rfl
    | some holder =>
      cases holder with
      | caller i => exact absurd hl (hfree i)
      | sender =>
        rw [h.sender.mpr hl] at hin
        cases hin
  cases hsender : s.sender with
  | asleep => exact ⟨s, .refl s, hlock (by rw [hsender]; rfl), hsender, hvalid⟩
  | locked =>
    obtain ⟨s', hreach, hrest, -⟩ := reaches_of_locked hsender hvalid (h.dumpable_list hdumps)
    exact ⟨s', hreach, hrest⟩
  | dumped l =>
    obtain ⟨s', hreach, hrest, -⟩ := reaches_sending
      (s := { s with listTriples := [], sender := .cleared l }) rfl hvalid
    exact ⟨s', .head (a := .clear) trivial (by simp [step, hsender]) hreach, hrest⟩
  | cleared l =>
    obtain ⟨s', hreach, hrest, -⟩ := reaches_sending hsender hvalid
    exact ⟨s', hreach, hrest⟩
  | sending l =>
    refine ⟨{ s with server := s.server ++ [l], sender := .asleep }, ?_,
      hlock (by rw [hsender]; rfl), rfl, hvalid⟩
    exact .of_step (a := .answer .done) trivial (by simp [step, hsender, State.answered])
  | stopped =>
    rw [h.failed.mp hsender] at hvalid
    cases hvalid
  | died => cases (hdied hsender).symm.trans (h.dumpable_list hdumps)

theorem step_release (hstage : s.stage i = .appended) :
    ∃ s', step dumps s (.release i) = some s' ∧ s'.lock = none ∧ s'.valid = s.valid :=
  ⟨{ s.goto i .out with lock := none }, by simp only [step, hstage], rfl, rfl⟩

/-- A thread that is in the lock leaves it. -/
theorem reaches_release (h : Inv s) (hlock : s.lock = some (.caller i)) :
    ∃ s', Reaches (step dumps) Action.GoesOn s s' ∧ s'.lock = none ∧ s'.valid = s.valid := by
  have hin := (h.caller i).mpr hlock
  cases hstage : s.stage i with
  | out =>
    rw [hstage] at hin
    cases hin
  | tested t =>
    rw [hstage] at hin
    cases hin
  | locked t =>
    have happend : step dumps s (.append i) = some { s.goto i .appended with
        listTriples := s.listTriples ++ [t], added := s.added ++ [(i, t)] } := by
      simp only [step, hstage]
    obtain ⟨s', hrelease, hfree, hvalid⟩ := step_release (s := { s.goto i .appended with
      listTriples := s.listTriples ++ [t], added := s.added ++ [(i, t)] })
      (Function.update_self i _ _)
    exact ⟨s', .head (a := .append i) trivial happend (.of_step (a := .release i) trivial hrelease),
      hfree, hvalid⟩
  | appended =>
    obtain ⟨s', hrelease, hfree, hvalid⟩ := step_release hstage
    exact ⟨s', .of_step (a := .release i) trivial hrelease, hfree, hvalid⟩

theorem reaches_rest (h : Inv s) (hvalid : s.valid = true) (hdied : DiedOf dumps s)
    (hdumps : s.Dumpable dumps) :
    ∃ s', Reaches (step dumps) Action.GoesOn s s' ∧ s'.AtRest := by
  by_cases hheld : ∃ i, s.lock = some (.caller i)
  · obtain ⟨i, hlock⟩ := hheld
    obtain ⟨s₁, hreach, hfree, hvalid₁⟩ := reaches_release h hlock
    obtain ⟨hinv₁, hdied₁⟩ := hreach.keeps keeps_diedOf ⟨h, hdied⟩
    obtain ⟨s₂, hreach₂, hrest⟩ := reaches_rest_of_sender hinv₁ (hvalid₁.trans hvalid) hdied₁
      (hdumps.of_reaches hreach) (by simp [hfree])
    exact ⟨s₂, hreach.trans hreach₂, hrest⟩
  · exact reaches_rest_of_sender h hvalid hdied hdumps fun i hlock => hheld ⟨i, hlock⟩

/-- As long as no request has failed, and the triples of all calls can be dumped, the threads that
are in the lock and the sender can go on until the server has received every triple that was added,
once and in order. -/
theorem drains {as : List (Action ι τ)} (h : run (step dumps) .init as = some s)
    (hvalid : s.valid = true) (hdumps : ∀ p ∈ s.called, dumps p.2 = true) :
    ∃ bs s', (∀ a ∈ bs, Action.GoesOn a) ∧ run (step dumps) s bs = some s' ∧
      s.added <+: s'.added ∧ s'.server.flatten = s'.added.map Prod.snd := by
  have hstart : Inv (State.init : State ι τ) ∧ DiedOf dumps (State.init : State ι τ) :=
    ⟨inv_init, nofun⟩
  obtain ⟨hinv, hdied⟩ := keeps_diedOf.run h hstart
  obtain ⟨s₁, hreach₁, hfree, hasleep, hvalid₁⟩ := reaches_rest hinv hvalid hdied hdumps
  have hinv₁ : Inv s₁ := hreach₁.keeps keeps_inv hinv
  obtain ⟨s₂, hreach₂, ⟨-, hasleep₂, hvalid₂⟩, hlist⟩ := reaches_of_locked
    (s := { s₁ with lock := some .sender, sender := .locked }) rfl hvalid₁
    (hinv₁.dumpable_list (State.Dumpable.of_reaches hdumps hreach₁))
  have hreach : Reaches (step dumps) Action.GoesOn s s₂ := by
    refine hreach₁.trans (.head (a := .wake) trivial ?_ hreach₂)
    simp only [step, hasleep, hfree]
  have hinv₂ : Inv s₂ := hreach.keeps keeps_inv hinv
  obtain ⟨bs, hbs, hrun⟩ := reaches_iff_run.mp hreach
  refine ⟨bs, s₂, hbs, hrun, hreach.keeps (keeps_added s.added) (List.prefix_refl _), ?_⟩
  rw [hinv₂.added, hlist, hasleep₂, hinv₂.kept hvalid₂]
  simp [Sender.inHand]

theorem drains_twoThreads : ∃ s : State Bool ℕ,
    run (step dumpsSmall) .init (twoThreads.take 12) = some s ∧
      ∃ bs s', (∀ a ∈ bs, Action.GoesOn a) ∧ run (step dumpsSmall) s bs = some s' ∧
        s.added <+: s'.added ∧ s'.server.flatten = s'.added.map Prod.snd := by
  have hrun : (run (step dumpsSmall) State.init (twoThreads.take 12)).map
      (fun s => (s.valid, s.called)) = some (true, [(true, 1), (false, 2)]) := rfl
  obtain ⟨s, hs, hrest⟩ := Option.map_eq_some_iff.mp hrun
  obtain ⟨hvalid, hcalled⟩ := Prod.mk.inj hrest
  exact ⟨s, hs, drains hs hvalid (hcalled ▸ by decide)⟩

/-- Once the list could not be dumped, nobody gets the lock: no triple is added, and the server
receives nothing. -/
theorem stuck_of_died {as bs : List (Action ι τ)} (h : run (step dumps) .init as = some s)
    (hdied : s.sender = .died) (h' : run (step dumps) s bs = some s') :
    s'.server = s.server ∧ s'.added = s.added := by
  have hinv : Inv s := keeps_inv.run h inv_init
  have hkeeps : Keeps (step (ι := ι) dumps) fun u =>
      Inv u ∧ u.sender = .died ∧ u.server = s.server ∧ u.added = s.added := by
    refine keeps_inv.and fun u a u' hstep hu hstuck => ?_
    obtain ⟨hsender, hserver, hadded⟩ := hstuck
    have hlock : u.lock = some .sender := hu.sender.mp (by rw [hsender]; rfl)
    have hout : ∀ i, (u.stage i).inLock = false := by
      intro i
      rw [Bool.eq_false_iff]
      intro hin
      cases ((hu.caller i).mp hin).symm.trans hlock
    cases a with
    | call i t =>
      simp only [step] at hstep
      split at hstep
      · split at hstep <;> cases hstep <;> exact ⟨hsender, hserver, hadded⟩
      · cases hstep
    | acquire i =>
      simp only [step, hlock] at hstep
      split at hstep <;> simp_all
    | append i =>
      simp only [step] at hstep
      split at hstep
      · rename_i hstage
        have hin := hout i
        rw [hstage] at hin
        cases hin
      · cases hstep
    | release i =>
      simp only [step] at hstep
      split at hstep <;> cases hstep
      exact ⟨hsender, hserver, hadded⟩
    | _ => simp [step, hsender] at hstep
  obtain ⟨-, -, hserver, hadded⟩ := hkeeps.run h' ⟨hinv, hdied, rfl, rfl⟩
  exact ⟨hserver, hadded⟩

end

end Survol.Dockit.HttpTriplesClient
