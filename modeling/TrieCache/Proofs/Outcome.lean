import TrieCache.Fault

/-!
# Outcomes of checked steps

An operation is specified by two conditions: one on the value it answers with, and one
on the fault it ends with when it has no answer.  A fault that no state of interest can
satisfy is thereby excluded, so the same specification serves runs that are known to
have succeeded and proofs that a run does succeed.
-/

namespace TrieCache

variable {α β : Type}

@[simp]
theorem ok_bind (value : α) (next : α → Checked β) : (Except.ok value >>= next) = next value :=
  rfl

@[simp]
theorem error_bind (fault : Fault) (next : α → Checked β) :
    ((Except.error fault : Checked α) >>= next) = .error fault :=
  rfl

@[simp]
theorem pure_eq_ok (value : α) : (pure value : Checked α) = .ok value :=
  rfl

/-- A sequence of two steps succeeds exactly when both do, one after the other. -/
theorem bind_eq_ok_iff {step : Checked α} {next : α → Checked β} {result : β} :
    step >>= next = .ok result ↔ ∃ value, step = .ok value ∧ next value = .ok result := by
  cases step with
  | error fault => simp
  | ok value => simp

theorem toOption_eq_some_iff {step : Checked α} {value : α} :
    step.toOption = some value ↔ step = .ok value := by
  cases step <;> simp [Except.toOption]

theorem exists_eq_ok_of_map {step : Checked α} {part : α → β} {value : β}
    (ran : step.map part = .ok value) : ∃ result, step = .ok result ∧ part result = value := by
  cases step with
  | error fault => cases ran
  | ok result =>
    cases ran
    exact ⟨result, rfl, rfl⟩

/-- Leaving a part out of what a sequence of steps answers: each step may do so in turn. -/
theorem map_bind_eq {α' β' : Type} {step : Checked α} {plain : Checked α'} {part : α → α'}
    {next : α → Checked β} {next' : α' → Checked β'} {part' : β → β'}
    (first : step.map part = plain)
    (second : ∀ value, (next value).map part' = next' (part value)) :
    (step >>= next).map part' = plain >>= next' := by
  subst first
  cases step with
  | error fault => rfl
  | ok value => exact second value

theorem map_bind_eq_of_same {β' : Type} (step : Checked α) {next : α → Checked β}
    {next' : α → Checked β'} {part : β → β'} (second : ∀ value, (next value).map part = next' value) :
    (step >>= next).map part = step >>= next' := by
  cases step with
  | error fault => rfl
  | ok value => exact second value

/-- A step ends in a value that is `good`, or in a fault that is `bad`. -/
def Ends (step : Checked α) (good : α → Prop) (bad : Fault → Prop) : Prop :=
  match step with
  | .ok value => good value
  | .error fault => bad fault

namespace Ends

variable {good good' : α → Prop} {bad bad' : Fault → Prop}

@[simp]
theorem ok_iff {value : α} : Ends (.ok value) good bad ↔ good value :=
  Iff.rfl

@[simp]
theorem error_iff {fault : Fault} : Ends (.error fault) good bad ↔ bad fault :=
  Iff.rfl

theorem of_eq_ok {step : Checked α} {value : α} (outcome : Ends step good bad)
    (ran : step = .ok value) : good value := by
  rw [ran] at outcome
  exact outcome

theorem mono {step : Checked α} (outcome : Ends step good bad)
    (better : ∀ value, good value → good' value) (worse : ∀ fault, bad fault → bad' fault) :
    Ends step good' bad' := by
  cases step with
  | error fault => exact worse fault outcome
  | ok value => exact better value outcome

/-- The value that a step ends in is the one that it returns. -/
theorem attach {step : Checked α} (outcome : Ends step good bad) :
    Ends step (fun value => step = .ok value ∧ good value) bad := by
  cases step with
  | error fault => exact outcome
  | ok value => exact ⟨rfl, outcome⟩

/-- The rule of sequencing: what the first step guarantees is what the second starts from. -/
theorem andThen {step : Checked α} {next : α → Checked β} {done : β → Prop}
    (first : Ends step good bad) (worse : ∀ fault, bad fault → bad' fault)
    (second : ∀ value, good value → Ends (next value) done bad') :
    Ends (step >>= next) done bad' := by
  cases step with
  | error fault => exact worse fault first
  | ok value => exact second value first

theorem bind {step : Checked α} {next : α → Checked β} {done : β → Prop}
    (first : Ends step good bad) (second : ∀ value, good value → Ends (next value) done bad) :
    Ends (step >>= next) done bad :=
  first.andThen (fun _ failed => failed) second

theorem of_wrapped {step : Checked α} {wrap : α → β} {done : β → Prop}
    (outcome : Ends (step >>= fun value => pure (wrap value)) done bad) :
    Ends step (fun value => done (wrap value)) bad := by
  cases step with
  | error fault => exact outcome
  | ok value => exact outcome

/-- A step none of whose faults can happen succeeds. -/
theorem exists_ok {step : Checked α} (outcome : Ends step good bad)
    (safe : ∀ fault, ¬ bad fault) : ∃ value, step = .ok value ∧ good value := by
  cases step with
  | error fault => exact absurd outcome (safe fault)
  | ok value => exact ⟨value, rfl, outcome⟩

theorem require (condition : Bool) (fault : Fault) :
    Ends (require condition fault) (fun _ => condition = true)
      (fun found => condition = false ∧ found = fault) := by
  cases condition with
  | false => exact ⟨rfl, rfl⟩
  | true => exact rfl

end Ends

end TrieCache
