import StyleCheck.Fault

/-!
# Reports

A computation that notes things as it goes and may be given up on the way. What was noted before
it was given up is kept: `Report.bind` joins the notes of its two halves whether or not the second
is reached.
-/

namespace StyleCheck

/-- What was noted, in order, and how it ended. -/
structure Report (ω α : Type) where
  notes : List ω
  outcome : Except Fault α

namespace Report

variable {ω α β : Type}

/-- Notes one thing. -/
def note (w : ω) : Report ω Unit := ⟨[w], .ok ()⟩

/-- Gives up. -/
def giveUp (e : Fault) : Report ω α := ⟨[], .error e⟩

/-- Notes nothing. -/
def lift (x : Except Fault α) : Report ω α := ⟨[], x⟩

def bind (r : Report ω α) (f : α → Report ω β) : Report ω β :=
  match r.outcome with
  | .ok a => ⟨r.notes ++ (f a).notes, (f a).outcome⟩
  | .error e => ⟨r.notes, .error e⟩

instance : Monad (Report ω) where
  pure a := ⟨[], .ok a⟩
  bind := bind

instance : MonadLift (Except Fault) (Report ω) := ⟨lift⟩

/-- The cause, if it was given up. -/
def fault? (r : Report ω α) : Option Fault :=
  match r.outcome with
  | .ok _ => none
  | .error e => some e

@[simp] theorem pure_notes (a : α) : (pure a : Report ω α).notes = [] := rfl

@[simp] theorem pure_outcome (a : α) : (pure a : Report ω α).outcome = .ok a := rfl

@[simp] theorem note_outcome (w : ω) : (note w).outcome = .ok () := rfl

@[simp] theorem lift_notes (x : Except Fault α) : (lift x : Report ω α).notes = [] := rfl

@[simp] theorem lift_outcome (x : Except Fault α) : (lift x : Report ω α).outcome = x := rfl

theorem bind_of_ok {r : Report ω α} {a : α} (h : r.outcome = .ok a) (f : α → Report ω β) :
    (r >>= f) = ⟨r.notes ++ (f a).notes, (f a).outcome⟩ := by
  show bind r f = _
  rw [bind, h]

theorem bind_of_error {r : Report ω α} {e : Fault} (h : r.outcome = .error e)
    (f : α → Report ω β) : (r >>= f) = ⟨r.notes, .error e⟩ := by
  show bind r f = _
  rw [bind, h]

/-- A computation comes to its end if both its halves do. -/
theorem bind_outcome_eq_ok {r : Report ω α} {f : α → Report ω β} {b : β} :
    (r >>= f).outcome = .ok b ↔ ∃ a, r.outcome = .ok a ∧ (f a).outcome = .ok b := by
  cases h : r.outcome with
  | ok a => simp [bind_of_ok h]
  | error e => simp [bind_of_error h]

theorem bind_notes_of_ok {r : Report ω α} {a : α} (h : r.outcome = .ok a) (f : α → Report ω β) :
    (r >>= f).notes = r.notes ++ (f a).notes := by rw [bind_of_ok h]

theorem ok_bind (n : List ω) (a : α) (f : α → Report ω β) :
    ((⟨n, .ok a⟩ : Report ω α) >>= f) = ⟨n ++ (f a).notes, (f a).outcome⟩ := rfl

theorem error_bind (n : List ω) (e : Fault) (f : α → Report ω β) :
    ((⟨n, .error e⟩ : Report ω α) >>= f) = ⟨n, .error e⟩ := rfl

/-- A computation comes to its end and notes nothing if both its halves do. -/
theorem bind_eq_pure {r : Report ω α} {f : α → Report ω β} {b : β} :
    (r >>= f) = pure b ↔ ∃ a, r = pure a ∧ f a = pure b := by
  rcases r with ⟨n, e | a⟩
  · constructor
    · intro h
      cases congrArg outcome h
    · rintro ⟨_, h, -⟩
      cases congrArg outcome h
  · rw [ok_bind]
    rcases hf : f a with ⟨m, o⟩
    constructor
    · intro h
      obtain ⟨hn, ho⟩ := mk.inj h
      obtain ⟨rfl, rfl⟩ := List.append_eq_nil_iff.mp hn
      exact ⟨a, rfl, hf.trans (congrArg (mk []) ho)⟩
    · rintro ⟨a', ha, hfa⟩
      obtain ⟨rfl, ho⟩ := mk.inj ha
      cases ho
      exact hf.symm.trans hfa

theorem lift_eq_pure {x : Except Fault α} {a : α} :
    (liftM x : Report ω α) = pure a ↔ x = .ok a :=
  ⟨congrArg outcome, congrArg (mk [])⟩

theorem note_ne_pure (w : ω) : note w ≠ pure () := fun h => by cases congrArg notes h

theorem giveUp_ne_pure (e : Fault) (a : α) : (giveUp e : Report ω α) ≠ pure a :=
  fun h => by cases congrArg outcome h

/-- A rule with an exit that is never clean is clean if the exit is not taken and the rest is. -/
theorem ite_eq_pure {p : Prop} [Decidable p] {r q : Report ω α} {a : α} (hr : r ≠ pure a) :
    (if p then r else q) = pure a ↔ ¬ p ∧ q = pure a := by
  split
  · next h => exact iff_of_false hr fun hq => hq.1 h
  · next h => exact (and_iff_right h).symm

instance : LawfulMonad (Report ω) := LawfulMonad.mk' _
  (by
    rintro α ⟨n, _ | a⟩
    · rfl
    · exact congrArg (Report.mk · _) (List.append_nil n))
  (by intros; rfl)
  (by
    rintro α β γ ⟨n, _ | a⟩ f g
    · rfl
    · rcases h : f a with ⟨m, _ | b⟩
      · simp only [ok_bind, error_bind, h]
      · simp only [ok_bind, h, List.append_assoc])

end Report

end StyleCheck
