import Survol.SubServers.Singleton
import Survol.Uris.Joining

/-!
# The election of a sub-server

Each process believes that it runs alone when it reads its own line back, but a process that
has opened the file may write its line after another one has read its own back; and a process
that has read the pid of a dead one removes whatever file is there. Without these two steps,
at most one process wins.

## Main definitions

* `AtMostOne` — at most one process has won.
* `Undisturbed` — no line is written after a process has won, and no file is removed that a
  process has opened for writing.
* `Exclusive` — the invariant: the processes that have opened the file for writing have opened
  the same one, and the winner's line is in it.

## Main results

* `readServer_overwrite` — the line that was written last is read back.
* `exclusive_step` — an undisturbed step keeps the invariant.
* `atMostOne_of_along` — at most one process wins in a run of undisturbed steps.
-/

namespace Survol.SubServers

open PyText (Text splitOn int? splitOn_of_not_mem splitOn_append_cons)
open Survol.Uris

/-! ## Reading a line back -/

theorem not_mem_digits {c : Char} (h : c.isDigit = false) (n : ℕ) : c ∉ Nat.toDigits 10 n := by
  intro hc
  have := PyText.isDigit_of_mem_toDigits hc
  rw [h] at this
  cases this

/-- The line that was written last is read back, whatever is left of older ones. -/
theorem readServer_overwrite (pid port : ℕ) (old : Text) :
    readServer (overwrite (line pid port) old) = some ((pid : ℤ), (port : ℤ)) := by
  have hno : '\n' ∉ Nat.toDigits 10 pid ++ ' ' :: Nat.toDigits 10 port := by
    simp [not_mem_digits (c := '\n') (by decide)]
  have hline (rest : Text) : readline (line pid port ++ rest) = line pid port := by
    have hassoc : line pid port ++ rest =
        (Nat.toDigits 10 pid ++ ' ' :: Nat.toDigits 10 port) ++ '\n' :: rest := by simp [line]
    rw [readline, hassoc, List.takeWhile_append_of_pos]
    · simp [line]
    · intro c hc
      have : c ≠ '\n' := fun h => hno (h ▸ hc)
      simpa using this
  have hsplit : splitOn ' ' (line pid port) =
      [Nat.toDigits 10 pid, Nat.toDigits 10 port ++ ['\n']] := by
    have hassoc : line pid port =
        Nat.toDigits 10 pid ++ ' ' :: (Nat.toDigits 10 port ++ ['\n']) := by simp [line]
    have hright : ' ' ∉ Nat.toDigits 10 port ++ ['\n'] := by
      simp [not_mem_digits (c := ' ') (by decide)]
    rw [hassoc, splitOn_append_cons, splitOn_of_not_mem (not_mem_digits (by decide) pid),
      splitOn_of_not_mem hright]
    rfl
  have hpid : int? (Nat.toDigits 10 pid) = some (pid : ℤ) := by
    refine PyText.int?_of_strip ?_
    have := PyText.strip_blanks (a := []) (b := []) (by simp) (by simp)
      (fun c hc => PyText.isDigit_of_mem_toDigits hc) (Nat.toDigits_ne_nil (n := pid))
    simpa using this
  have hport : int? (Nat.toDigits 10 port ++ ['\n']) = some (port : ℤ) := by
    refine PyText.int?_of_strip ?_
    exact PyText.strip_blanks (a := []) (by simp) (by decide)
      (fun c hc => PyText.isDigit_of_mem_toDigits hc) (Nat.toDigits_ne_nil (n := port))
  rw [readServer, overwrite, hline, hsplit]
  simp only [hpid, hport]

theorem readServer_nil : readServer [] = none := rfl

theorem readBackStage_eq_won {pid port : ℕ} {content : Text}
    (h : readBackStage pid port content = .won) :
    readServer content = some ((pid : ℤ), (port : ℤ)) := by
  rw [readBackStage] at h
  cases hr : readServer content with
  | none =>
    rw [hr] at h
    cases h
  | some r =>
    rw [hr] at h
    simp only at h
    split at h
    · cases h
    · rename_i hne
      rw [not_or, not_not, not_not] at hne
      rw [hne.1, hne.2]

/-! ## Winners -/

/-- At most one process has won. -/
def AtMostOne (w : World) : Prop := ∀ p q, w.stage p = .won → w.stage q = .won → p = q

/-- No line is written after a process has won, and no file is removed while a process has it
open for writing or has won. -/
def Undisturbed (w : World) (pid : ℕ) : Prop :=
  match w.stage pid with
  | .writing _ => ∀ q, w.stage q ≠ .won
  | .removing => ∀ q, w.stage q ≠ .won ∧
      ∀ fd, w.stage q ≠ .writing fd ∧ w.stage q ≠ .readingBack fd
  | _ => True

/-- Whether a process has the file open for writing. -/
def Stage.Opened (s : Stage) (fd : ℕ) : Prop := s = .writing fd ∨ s = .readingBack fd

/-- The file has the line of the process, or was truncated. -/
def Files.HasLine (f : Files) (pid : ℕ) : Prop := ∃ fd, f.path = some fd ∧
  (f.contents fd = [] ∨ ∃ port : ℤ, readServer (f.contents fd) = some ((pid : ℤ), port))

/-- The processes that have opened the file for writing have opened the same one, and the
line of the winner is in it, or it was truncated. -/
structure Exclusive (w : World) : Prop where
  opened : ∀ pid fd, (w.stage pid).Opened fd → w.files.path = some fd
  winner : ∀ pid, w.stage pid = .won → w.files.HasLine pid
  one : AtMostOne w

theorem exclusive_begin (content : Option Text) : Exclusive (begin content) where
  opened := by
    intro pid fd h
    rcases h with h | h <;> cases h
  winner := by
    intro pid h
    cases h
  one := by
    intro p q h
    cases h

section Steps

variable {pidExists : ℕ → Bool} {removeErrorCaught : Bool} {port : Option ℕ} {w : World}
  {pid : ℕ}

/-- What is to be shown for a step of one process: the others are where they were. -/
theorem exclusive_update {f : Files} {s : Stage} (hone : AtMostOne w)
    (hothers : ∀ q, q ≠ pid → ∀ fd, (w.stage q).Opened fd → f.path = some fd)
    (hself : ∀ fd, s.Opened fd → f.path = some fd)
    (hwinners : ∀ q, q ≠ pid → w.stage q = .won → f.HasLine q)
    (hwon : s = .won → f.HasLine pid ∧ ∀ q, q ≠ pid → w.stage q ≠ .won) :
    Exclusive ⟨f, Function.update w.stage pid s⟩ where
  opened := by
    intro q fd hq
    by_cases hqp : q = pid
    · subst hqp
      simp only [Function.update_self] at hq
      exact hself fd hq
    · simp only [Function.update_of_ne hqp] at hq
      exact hothers q hqp fd hq
  winner := by
    intro q hq
    by_cases hqp : q = pid
    · subst hqp
      simp only [Function.update_self] at hq
      exact (hwon hq).1
    · simp only [Function.update_of_ne hqp] at hq
      exact hwinners q hqp hq
  one := by
    intro p q hp hq
    by_cases hpp : p = pid
    · subst hpp
      by_cases hqp : q = p
      · exact hqp.symm
      · simp only [Function.update_self] at hp
        simp only [Function.update_of_ne hqp] at hq
        exact absurd hq ((hwon hp).2 q hqp)
    · simp only [Function.update_of_ne hpp] at hp
      by_cases hqp : q = pid
      · subst hqp
        simp only [Function.update_self] at hq
        exact absurd hp ((hwon hq).2 p hpp)
      · simp only [Function.update_of_ne hqp] at hq
        exact hone p q hp hq

/-- A step that leaves the files alone, and after which the process neither has the file open
for writing nor has won. -/
theorem Exclusive.stage (h : Exclusive w) {s : Stage} (hopen : ∀ fd, ¬ s.Opened fd)
    (hwon : s ≠ .won) : Exclusive ⟨w.files, Function.update w.stage pid s⟩ :=
  exclusive_update h.one (fun q _ fd hq => h.opened q fd hq)
    (fun fd hs => absurd hs (hopen fd)) (fun q _ hq => h.winner q hq)
    fun hs => absurd hs hwon

theorem not_opened {s : Stage} (hw : ∀ fd, s ≠ .writing fd) (hr : ∀ fd, s ≠ .readingBack fd)
    (fd : ℕ) : ¬ s.Opened fd := by
  rintro (h | h)
  · exact hw fd h
  · exact hr fd h

theorem Exclusive.removed (hu : ∀ q, w.stage q ≠ .won ∧
    ∀ fd, w.stage q ≠ .writing fd ∧ w.stage q ≠ .readingBack fd) :
    Exclusive ⟨{ w.files with path := none }, Function.update w.stage pid .starting⟩ := by
  refine exclusive_update ?_ ?_ ?_ ?_ ?_
  · intro p q hp
    exact absurd hp (hu p).1
  · intro q _ fd hq
    exact absurd hq (not_opened (fun fd => ((hu q).2 fd).1) (fun fd => ((hu q).2 fd).2) fd)
  · intro fd hs
    rcases hs with hs | hs <;> cases hs
  · intro q _ hq
    exact absurd hq (hu q).1
  · intro hs
    cases hs

/-- Opening the file truncates it, or makes it anew when no process has it open. -/
theorem Exclusive.openedForWriting (h : Exclusive w) {s : Stage} (hwon : s ≠ .won)
    (hs : ∀ fd, s.Opened fd → fd = w.files.openForWriting.2) :
    Exclusive ⟨w.files.openForWriting.1, Function.update w.stage pid s⟩ := by
  have hpath : w.files.openForWriting.1.path = some w.files.openForWriting.2 := by
    rw [Files.openForWriting]
    split
    · assumption
    · rfl
  have hsame {fd : ℕ} (hfd : w.files.path = some fd) : w.files.openForWriting.2 = fd ∧
      w.files.openForWriting.1.contents fd = [] := by
    rw [Files.openForWriting, hfd]
    exact ⟨rfl, Function.update_self ..⟩
  refine exclusive_update h.one ?_ ?_ ?_ ?_
  · intro q _ fd hq
    rw [hpath, (hsame (h.opened q fd hq)).1]
  · intro fd hfd
    rw [hpath, hs fd hfd]
  · intro q _ hq
    obtain ⟨fd, hfd, -⟩ := h.winner q hq
    exact ⟨fd, by rw [hpath, (hsame hfd).1], .inl (hsame hfd).2⟩
  · intro hs
    exact absurd hs hwon

theorem Exclusive.written (h : Exclusive w) {fd : ℕ} (hs : w.stage pid = .writing fd)
    (hu : ∀ q, w.stage q ≠ .won) (content : Text) :
    Exclusive ⟨{ w.files with contents := Function.update w.files.contents fd content },
      Function.update w.stage pid (.readingBack fd)⟩ := by
  refine exclusive_update h.one ?_ ?_ ?_ ?_
  · intro q _ fd' hq
    exact h.opened q fd' hq
  · intro fd' hfd
    rcases hfd with hfd | hfd
    · cases hfd
    · cases hfd
      exact h.opened pid fd (.inl hs)
  · intro q _ hq
    exact absurd hq (hu q)
  · intro hs
    cases hs

/-- A process that reads its own line back wins, and then no other one has won. -/
theorem Exclusive.readBack (h : Exclusive w) {fd : ℕ} (hs : w.stage pid = .readingBack fd)
    (port : ℕ) : Exclusive ⟨w.files,
      Function.update w.stage pid (readBackStage pid port (w.files.contents fd))⟩ := by
  have hpath : w.files.path = some fd := h.opened pid fd (.inr hs)
  refine exclusive_update h.one (fun q _ fd' hq => h.opened q fd' hq) ?_
    (fun q _ hq => h.winner q hq) ?_
  · intro fd' hfd
    refine absurd hfd (not_opened ?_ ?_ fd')
    all_goals
      intro fd'
      rw [readBackStage]
      split
      · simp
      · split <;> simp
  · intro hwon
    have hread := readBackStage_eq_won hwon
    refine ⟨⟨fd, hpath, .inr ⟨port, hread⟩⟩, fun q hqp hq => ?_⟩
    obtain ⟨fd', hfd', hcontent⟩ := h.winner q hq
    rw [hpath, Option.some.injEq] at hfd'
    subst hfd'
    rcases hcontent with hnil | ⟨port', hport'⟩
    · rw [hnil, readServer_nil] at hread
      cases hread
    · rw [hread] at hport'
      simp only [Option.some.injEq, Prod.mk.injEq, Int.natCast_inj] at hport'
      exact hqp hport'.1.symm

/-- **An undisturbed step keeps the invariant.** -/
theorem exclusive_step (h : Exclusive w) (hu : Undisturbed w pid) :
    Exclusive (step pidExists removeErrorCaught port w pid) := by
  rw [step]
  split
  · rw [Undisturbed] at hu
    cases hs : w.stage pid with
    | begin =>
      simp only [stepStage]
      split <;> exact h.stage (not_opened (by simp) (by simp)) (by simp)
    | opening =>
      simp only [stepStage]
      split <;> exact h.stage (not_opened (by simp) (by simp)) (by simp)
    | reading fd =>
      simp only [stepStage, readStage]
      split
      · exact h.stage (not_opened (by simp) (by simp)) (by simp)
      · split <;> exact h.stage (not_opened (by simp) (by simp)) (by simp)
    | removing =>
      rw [hs] at hu
      simp only [stepStage]
      split
      · exact Exclusive.removed hu
      · split <;> exact h.stage (not_opened (by simp) (by simp)) (by simp)
    | starting =>
      simp only [stepStage]
      split
      · exact h.openedForWriting (by simp) fun fd hfd => by
          rcases hfd with hfd | hfd <;> cases hfd
          rfl
      · exact h.openedForWriting (by simp) fun fd hfd => by
          rcases hfd with hfd | hfd <;> cases hfd
    | writing fd =>
      rw [hs] at hu
      simp only [stepStage]
      split
      · exact h.written hs hu _
      · exact h.stage (not_opened (by simp) (by simp)) (by simp)
    | readingBack fd =>
      simp only [stepStage]
      split
      · exact h.readBack hs _
      · exact h.stage (not_opened (by simp) (by simp)) (by simp)
    | running | won | lost | failed =>
      simp only [stepStage]
      rw [← hs, Function.update_eq_self]
      exact h
  · exact h

end Steps

/-! ## Runs -/

/-- All steps of a run are undisturbed, each in the state it is made in. -/
def Along (pidExists : ℕ → Bool) (removeErrorCaught : Bool) (port : Option ℕ) :
    World → List ℕ → Prop
  | _, [] => True
  | w, pid :: order => Undisturbed w pid ∧
      Along pidExists removeErrorCaught port (step pidExists removeErrorCaught port w pid) order

theorem exclusive_run {pidExists : ℕ → Bool} {removeErrorCaught : Bool} {port : Option ℕ}
    {w : World} {order : List ℕ} (h : Exclusive w)
    (hu : Along pidExists removeErrorCaught port w order) {order' : List ℕ}
    (hpre : order' <+: order) : Exclusive (run pidExists removeErrorCaught port w order') := by
  induction order generalizing w order' with
  | nil =>
    rw [List.prefix_nil.mp hpre]
    exact h
  | cons pid order ih =>
    cases order' with
    | nil => exact h
    | cons pid' order' =>
      obtain ⟨rfl, hrest⟩ := List.cons_prefix_cons.mp hpre
      exact ih (exclusive_step h hu.1) hu.2 hrest

/-- **In every run of undisturbed steps, of any number of processes and from any file, at most
one process has won in every state.** -/
theorem atMostOne_of_along (appBaseName : String) (pidExists : ℕ → Bool)
    (removeErrorCaught : Bool) (content : Option Text) (order : List ℕ)
    (h : Along pidExists removeErrorCaught (portDict.lookup appBaseName) (begin content) order)
    (order' : List ℕ) (hpre : order' <+: order) : AtMostOne
      (run pidExists removeErrorCaught (portDict.lookup appBaseName) (begin content) order') :=
  (exclusive_run (exclusive_begin content) h hpre).one

/-- A line that is written after a process has won is read back by its own process, which wins
too: the run goes on to two winners. -/
theorem not_atMostOne_of_disturbed {pidExists : ℕ → Bool} {removeErrorCaught : Bool} {port : ℕ}
    {w : World} {p q fd : ℕ} (hp : w.stage p = .won) (hq : w.stage q = .writing fd)
    (hex : pidExists q = true) :
    ¬ AtMostOne (run pidExists removeErrorCaught (some port) w [q, q]) := by
  have hne : p ≠ q := by
    rintro rfl
    rw [hp] at hq
    cases hq
  have hback (old : Text) : readBackStage q port (overwrite (line q port) old) = .won := by
    simp [readBackStage, readServer_overwrite]
  intro hone
  refine hne (hone p q ?_ ?_)
  · simp [run, step, stepStage, hq, hex, hp, Function.update_of_ne hne]
  · simp [run, step, stepStage, hq, hex, hback]

/-- Two processes, the second of which finds the line of the first. -/
theorem atMostOne_of_along_two : AtMostOne (run (fun _ => true) true (portDict.lookup "tcpdump")
    (begin none) [1, 1, 1, 1, 2, 2, 2]) := by
  refine atMostOne_of_along "tcpdump" (fun _ => true) true none [1, 1, 1, 1, 2, 2, 2] ?_ _
    (List.prefix_refl _)
  refine ⟨trivial, trivial, fun q => ?_, trivial, trivial, trivial, trivial, trivial⟩
  by_cases hq : q = 1
  · subst hq
    decide
  · simp [step, begin, Function.update_of_ne hq]

/-- Both processes open the file; the second one writes after the first one has won. -/
theorem two_winners : ¬ ∀ (appBaseName : String) (pidExists : ℕ → Bool)
    (removeErrorCaught : Bool) (content : Option Text) (order : List ℕ), AtMostOne
      (run pidExists removeErrorCaught (portDict.lookup appBaseName) (begin content) order) := by
  intro h
  have hone := h "tcpdump" (fun _ => true) true none [1, 2, 1, 2, 1, 1, 2, 2] 1 2
    (by decide) (by decide)
  revert hone
  decide

end Survol.SubServers
