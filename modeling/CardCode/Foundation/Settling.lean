import CardCode.Foundation.Process
import Mathlib.Order.GameAdd

/-! # Coming to rest

Parties that each come to rest on their own come to rest together, however their
steps are interleaved. Nothing here names a particular program.
-/

namespace CardCode

section Rows

variable {α : Type} {lower : α → α → Prop}

/-- One entry of the row on the right has gone down in the row on the left. -/
inductive LowersOne (lower : α → α → Prop) : List α → List α → Prop
  | head {later earlier rest} :
      lower later earlier → LowersOne lower (later :: rest) (earlier :: rest)
  | tail {first later earlier} :
      LowersOne lower later earlier → LowersOne lower (first :: later) (first :: earlier)

theorem lowersOne_set {row : List α} {place : Nat} {later earlier : α}
    (stands : row[place]? = some earlier) (goesDown : lower later earlier) :
    LowersOne lower (row.set place later) row := by
  induction row generalizing place with
  | nil => cases stands
  | cons first rest induction =>
      cases place with
      | zero =>
          rw [List.getElem?_cons_zero] at stands
          cases stands
          exact .head goesDown
      | succ place =>
          rw [List.getElem?_cons_succ] at stands
          exact .tail (induction stands)

/-- A row is a game of its first entry beside a game of the others. -/
theorem acc_cons {first : α} {rest : List α}
    (settles : Acc (Prod.GameAdd lower (LowersOne lower)) (first, rest)) :
    Acc (LowersOne lower) (first :: rest) := by
  generalize same : (first, rest) = position at settles
  induction settles generalizing first rest with
  | intro position _ induction =>
      cases same
      constructor
      intro next step
      cases step with
      | head goesDown => exact induction _ (.fst goesDown) rfl
      | tail goesDown => exact induction _ (.snd goesDown) rfl

theorem lowersOne_wellFounded (settles : WellFounded lower) : WellFounded (LowersOne lower) := by
  constructor
  intro row
  induction row with
  | nil => exact ⟨_, fun _ step => nomatch step⟩
  | cons first rest induction => exact acc_cons ((settles.apply first).prod_gameAdd induction)

end Rows

/-- What is left of a process once it has performed an action or got a reply. -/
inductive Process.Resumes {interface : Interface} {Fault α : Type} :
    Process interface Fault α → Process interface Fault α → Prop
  | act {action next} : Resumes next (.act action next)
  | ask {query next} (reply : interface.Reply query) : Resumes (next reply) (.ask query next)

theorem Process.resumes_wellFounded {interface : Interface} {Fault α : Type} :
    WellFounded (@Process.Resumes interface Fault α) := by
  constructor
  intro process
  induction process with
  | done | fault => exact ⟨_, fun _ resumes => nomatch resumes⟩
  | act action next induction =>
      constructor
      intro later resumes
      cases resumes with
      | act => exact induction
  | ask query next induction =>
      constructor
      intro later resumes
      cases resumes with
      | ask reply => exact induction reply

end CardCode
