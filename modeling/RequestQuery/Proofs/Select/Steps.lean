import RequestQuery.Select.Item
import Mathlib.Data.List.Nodup

/-!
# All steps of a select

The steps at every level of groups, for what is said of each of them. A parameter is refused as given
twice exactly if some step has two of one name.
-/

namespace RequestQuery

def SelectStep.members : SelectStep → List SelectItem
  | .named _ _ => []
  | .group members _ _ => members

def SelectStep.parameterNames (step : SelectStep) : List String :=
  step.parameters.map fun p => p.name.value

mutual
def SelectItem.allSteps : SelectItem → List SelectStep
  | .chain steps _ => SelectStep.allStepsList steps

def SelectItem.allStepsList : List SelectItem → List SelectStep
  | [] => []
  | item :: rest => item.allSteps ++ SelectItem.allStepsList rest

def SelectStep.allSteps : SelectStep → List SelectStep
  | .named name parameters => [.named name parameters]
  | .group members parameters span =>
      .group members parameters span :: SelectItem.allStepsList members

def SelectStep.allStepsList : List SelectStep → List SelectStep
  | [] => []
  | step :: rest => step.allSteps ++ SelectStep.allStepsList rest
end

private theorem firstRepeated_eq_none (seen : List String) (parameters : List RawParameter) :
    firstRepeated seen parameters = none ↔
      (parameters.map fun p => p.name.value).Nodup ∧ ∀ p ∈ parameters, p.name.value ∉ seen := by
  induction parameters generalizing seen with
  | nil => simp [firstRepeated]
  | cons p rest ih =>
      by_cases hseen : p.name.value ∈ seen
      · simp [firstRepeated, hseen]
      · have hcontains : ¬seen.contains p.name.value = true := by simpa using hseen
        rw [firstRepeated, if_neg hcontains, ih, List.map_cons, List.nodup_cons,
          List.forall_mem_cons]
        simp only [List.mem_cons, not_or, List.mem_map, not_exists, not_and]
        constructor
        · rintro ⟨hnodup, hrest⟩
          exact ⟨⟨fun q hq => (hrest q hq).1, hnodup⟩, hseen, fun q hq => (hrest q hq).2⟩
        · rintro ⟨⟨hne, hnodup⟩, -, hrest⟩
          exact ⟨hnodup, fun q hq => ⟨hne q hq, hrest q hq⟩⟩

/-- The first parameter of a step whose name the step has given before. -/
def SelectStep.ownRepeated (step : SelectStep) : Option (Spanned String) :=
  firstRepeated [] step.parameters

mutual
/-- The first repeated parameter is the first one that repeats a name of its own step. -/
private theorem SelectItem.repeated_eq_findSome? : ∀ item : SelectItem,
    item.repeated = item.allSteps.findSome? SelectStep.ownRepeated
  | .chain steps _ => SelectStep.repeatedList_eq_findSome? steps

theorem SelectItem.repeatedList_eq_findSome? : ∀ items : List SelectItem,
    SelectItem.repeatedList items =
      (SelectItem.allStepsList items).findSome? SelectStep.ownRepeated
  | [] => rfl
  | item :: rest => by
      rw [SelectItem.repeatedList, SelectItem.allStepsList, List.findSome?_append,
        item.repeated_eq_findSome?, SelectItem.repeatedList_eq_findSome? rest]
      exact Option.orElse_eq_or

private theorem SelectStep.repeated_eq_findSome? : ∀ step : SelectStep,
    step.repeated = step.allSteps.findSome? SelectStep.ownRepeated
  | .named name parameters => by
      rw [SelectStep.allSteps, List.findSome?_singleton]
      rfl
  | .group members parameters span => by
      rw [SelectStep.repeated, SelectStep.allSteps, List.findSome?_cons,
        SelectItem.repeatedList_eq_findSome? members]
      change (SelectStep.ownRepeated (.group members parameters span) <|> _) = _
      cases SelectStep.ownRepeated (.group members parameters span) <;> rfl

private theorem SelectStep.repeatedList_eq_findSome? : ∀ steps : List SelectStep,
    SelectStep.repeatedList steps =
      (SelectStep.allStepsList steps).findSome? SelectStep.ownRepeated
  | [] => rfl
  | step :: rest => by
      rw [SelectStep.repeatedList, SelectStep.allStepsList, List.findSome?_append,
        step.repeated_eq_findSome?, SelectStep.repeatedList_eq_findSome? rest]
      exact Option.orElse_eq_or
end

theorem SelectItem.repeatedList_eq_none (items : List SelectItem) :
    SelectItem.repeatedList items = none ↔
      ∀ step ∈ SelectItem.allStepsList items, step.parameterNames.Nodup := by
  simp [SelectItem.repeatedList_eq_findSome?, List.findSome?_eq_none_iff, SelectStep.ownRepeated,
    firstRepeated_eq_none, SelectStep.parameterNames]

end RequestQuery
