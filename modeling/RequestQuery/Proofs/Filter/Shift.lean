import RequestQuery.Proofs.Filter.Meaning

/-!
# Filters at another place

The spans of a term tell where its text stands in the source. Moving the text moves the spans and
nothing else: the term of a derivation at another offset is the shifted term, and it stands for the
same alternatives.
-/

namespace RequestQuery

def Spanned.shift {α : Type} (n : Nat) (s : Spanned α) : Spanned α :=
  { s with span := s.span.shift n }

def Ending.shift (n : Nat) (ending : Ending) : Ending := (Spanned.shift n ending.1, ending.2)

mutual
/-- The term of a text that stands `n` bytes further on. -/
def Term.shift (n : Nat) : Term → Term
  | .any terms => .any (Term.shiftList n terms)
  | .all terms => .all (Term.shiftList n terms)
  | .path head steps ending span =>
      .path (head.shift n) (Step.shiftList n steps) (ending.map (Ending.shift n)) (span.shift n)

def Term.shiftList (n : Nat) : List Term → List Term
  | [] => []
  | term :: rest => term.shift n :: Term.shiftList n rest

def Step.shiftList (n : Nat) : List Step → List Step
  | [] => []
  | .segment name :: rest => .segment (name.shift n) :: Step.shiftList n rest
  | .group term :: rest => .group (term.shift n) :: Step.shiftList n rest
end

namespace Grammar

private theorem collapse_shift (level : Level) (n : Nat) (terms : List Term) :
    (Term.collapse level.wrap terms).shift n =
      Term.collapse level.wrap (Term.shiftList n terms) := by
  match terms with
  | [term] => rfl
  | [] | _ :: _ :: _ => cases level <;> rfl

private theorem EndingSpelling.ending_add (e : EndingSpelling) (offset n : Nat) :
    e.ending (offset + n) = Ending.shift n (e.ending offset) := by
  simp [ending, Ending.shift, Spanned.shift, Span.shift, Nat.add_right_comm]

mutual
theorem Chain.terms_add {level : Level} : ∀ (chain : Chain level) (offset n : Nat),
    chain.terms (offset + n) = Term.shiftList n (chain.terms offset)
  | .last part, offset, n => by
      simp only [Chain.terms, Term.shiftList, part.term_add offset n]
  | .cons part before after rest, offset, n => by
      simp only [Chain.terms, Term.shiftList, part.term_add offset n, Nat.add_right_comm offset n,
        rest.terms_add _ n]

theorem Part.term_add {level : Level} : ∀ (part : Part level) (offset n : Nat),
    part.term (offset + n) = (part.term offset).shift n
  | .conjunction chain, offset, n => by
      have hcollapse := collapse_shift .all n (chain.terms offset)
      rw [← chain.terms_add offset n] at hcollapse
      exact hcollapse.symm
  | .parentheses before inner _, offset, n => by
      have hcollapse := collapse_shift .any n (inner.terms (offset + byteLength ('(' :: before)))
      rw [← inner.terms_add, Nat.add_right_comm] at hcollapse
      exact hcollapse.symm
  | .path head steps ending, offset, n => by
      simp only [Part.term, Term.shift, Spanned.shift, Span.shift, Nat.add_right_comm offset n,
        steps.steps_add _ n, Option.map_map]
      congr 2
      funext e
      exact e.ending_add _ n

theorem Steps.steps_add : ∀ (steps : Steps) (offset n : Nat),
    steps.steps (offset + n) = Step.shiftList n (steps.steps offset)
  | .done, _, _ => rfl
  | .segment name rest, offset, n => by
      simp only [Steps.steps, Step.shiftList, Spanned.shift, Span.shift,
        Nat.add_right_comm _ n, rest.steps_add _ n]
  | .group before inner after rest, offset, n => by
      have hcollapse := collapse_shift .any n (inner.terms (offset + byteLength ('[' :: before)))
      rw [← inner.terms_add] at hcollapse
      simp only [Steps.steps, Step.shiftList, Nat.add_right_comm offset n, rest.steps_add _ n]
      exact congrArg (fun term => Step.group term :: _) hcollapse.symm
end

theorem Chain.term_add {level : Level} (chain : Chain level) (offset n : Nat) :
    chain.term (offset + n) = (chain.term offset).shift n := by
  rw [Chain.term, Chain.term, chain.terms_add, collapse_shift]

end Grammar

def Leaf.shift (n : Nat) (leaf : Leaf) : Leaf :=
  { leaf with ending := leaf.ending.map (Ending.shift n), span := leaf.span.shift n }

def RawComparison.shift (n : Nat) (raw : RawComparison) : RawComparison :=
  { raw with token := raw.token.shift n, span := raw.span.shift n }

section Leaves

variable {n : Nat}

private theorem Leaf.extend_shift (name : Spanned String) (leaf : Leaf) (u : Formula Leaf)
    (h : leaf.extend name = .ok u) :
    (leaf.shift n).extend (name.shift n) = .ok (u.map (Leaf.shift n)) := by
  obtain ⟨path, _ | ending, span⟩ := leaf <;> cases h
  simp [Leaf.extend, Leaf.checkOpen, Leaf.shift, Spanned.shift]

private theorem Leaf.branch_shift (place place' : Span) (inner : Formula Leaf) (leaf : Leaf)
    (u : Formula Leaf) (h : leaf.branch place inner = .ok u) :
    (leaf.shift n).branch place' (inner.map (Leaf.shift n)) = .ok (u.map (Leaf.shift n)) := by
  -- The place is told in faults only, so it may be any other one.
  obtain ⟨path, _ | ending, span⟩ := leaf <;> cases h
  simp only [Leaf.branch, Leaf.checkOpen, Leaf.shift, Option.map_none, Formula.map_map]
  rfl

private theorem Leaf.close_shift (ending : Ending) (leaf : Leaf) (u : Formula Leaf)
    (h : leaf.close ending = .ok u) :
    (leaf.shift n).close (Ending.shift n ending) = .ok (u.map (Leaf.shift n)) := by
  obtain ⟨path, _ | ending, span⟩ := leaf <;> cases h
  simp [Leaf.close, Leaf.checkOpen, Leaf.shift]

mutual
theorem Term.leaves_shift : ∀ (term : Term) {formula : Formula Leaf}, term.leaves = .ok formula →
    (term.shift n).leaves = .ok (formula.map (Leaf.shift n))
  | .any terms, _, h | .all terms, _, h => by
      simp only [Term.leaves] at h
      split at h <;> cases h
      next parts hparts =>
        simp only [Term.shift, Term.leaves, Term.leavesList_shift terms hparts, Formula.map_any,
          Formula.map_all]
  | .path head steps ending span, formula, h => by
      simp only [Term.leaves] at h
      split at h
      next walked hwalk =>
        have hshift := Step.walk_shift steps hwalk
        rw [Formula.map_leaf] at hshift
        change Step.walk _ (.leaf ⟨[(head.shift n).value], none, span.shift n⟩) = _ at hshift
        simp only [Term.shift, Term.leaves, hshift]
        cases ending with
        | none =>
            cases h
            rfl
        | some ending => exact Formula.substitute_map (Leaf.close_shift ending) h
      next => cases h

theorem Term.leavesList_shift : ∀ (terms : List Term) {parts : List (Formula Leaf)},
    Term.leavesList terms = .ok parts →
      Term.leavesList (Term.shiftList n terms) = .ok (parts.map (Formula.map (Leaf.shift n)))
  | [], _, h => by
      cases h
      rfl
  | term :: rest, _, h => by
      simp only [Term.leavesList] at h
      split at h
      next part hpart =>
        split at h <;> cases h
        next parts hparts =>
          simp only [Term.shiftList, Term.leavesList, term.leaves_shift hpart,
            Term.leavesList_shift rest hparts, List.map_cons]
      next => cases h

theorem Step.walk_shift : ∀ (steps : List Step) {formula formula' : Formula Leaf},
    Step.walk steps formula = .ok formula' →
      Step.walk (Step.shiftList n steps) (formula.map (Leaf.shift n)) =
        .ok (formula'.map (Leaf.shift n))
  | [], _, _, h => by
      cases h
      rfl
  | .segment name :: rest, _, _, h => by
      simp only [Step.walk] at h
      split at h
      next next hnext =>
        simp only [Step.shiftList, Step.walk,
          Formula.substitute_map (Leaf.extend_shift name) hnext]
        exact Step.walk_shift rest h
      next => cases h
  | .group term :: rest, _, _, h => by
      simp only [Step.walk] at h
      split at h
      next inner hinner =>
        split at h
        next next hnext =>
          simp only [Step.shiftList, Step.walk, term.leaves_shift hinner,
            Formula.substitute_map (Leaf.branch_shift term.start (term.shift n).start inner) hnext]
          exact Step.walk_shift rest h
        next => cases h
      next => cases h
end

end Leaves

/-- The path is kept, and the operator hangs on the token and the value only. -/
theorem OperatorTable.resolve_congr {operators : OperatorTable} {raw : RawComparison}
    {c : Comparison} (h : operators.resolve raw = .ok c) (raw' : RawComparison)
    (htoken : raw'.token.value = raw.token.value) (hvalue : raw'.value = raw.value) :
    c.path = raw.path ∧ operators.resolve raw' = .ok { c with path := raw'.path } := by
  simp only [resolve, htoken, hvalue] at h ⊢
  split at h
  next => cases h
  next operator hfind =>
    split at h
    next hrange =>
      split at h <;> cases h
      exact ⟨rfl, if_pos hrange⟩
    next hrange =>
      cases h
      exact ⟨rfl, if_neg hrange⟩

theorem Term.Means.follow {operators : OperatorTable} {term term' : Term}
    {alternatives : List (List Comparison)} (h : term.Means operators alternatives)
    {s : RawComparison → RawComparison} {r : Comparison → Comparison}
    (hexpand : ∀ tree : Formula RawComparison, term.leaves = .ok (tree.map RawComparison.leaf) →
      term'.leaves = .ok ((tree.map s).map RawComparison.leaf))
    (hresolve : ∀ raw c, operators.resolve raw = .ok c → operators.resolve (s raw) = .ok (r c)) :
    term'.Means operators (alternatives.map (List.map r)) := by
  obtain ⟨tree, resolved, htree, hresolved, rfl⟩ := h
  refine ⟨tree.map s, resolved.map r, ?_, ?_, Formula.alternatives_map r resolved⟩
  · rw [expand_eq_ok_iff] at htree ⊢
    exact hexpand tree htree
  · rw [← Formula.traverse_eq_ok_iff] at hresolved ⊢
    exact Formula.traverse_map hresolve hresolved

theorem Term.Means.shift {operators : OperatorTable} {term : Term}
    {alternatives : List (List Comparison)} (h : term.Means operators alternatives) (n : Nat) :
    (term.shift n).Means operators alternatives := by
  have hfollow : (term.shift n).Means operators (alternatives.map (List.map id)) := by
    apply h.follow (s := RawComparison.shift n)
    · intro tree htree
      rw [term.leaves_shift htree, Formula.map_map, Formula.map_map]
      rfl
    · intro raw c hraw
      obtain ⟨hpath, hshift⟩ := OperatorTable.resolve_congr hraw (raw.shift n) rfl rfl
      rw [hshift, show (raw.shift n).path = c.path from hpath.symm]
      rfl
  simpa using hfollow

theorem Grammar.Chain.means_of_le {operators : OperatorTable} {level : Level} {chain : Chain level}
    {alternatives : List (List Comparison)} {offset offset' : Nat}
    (h : (chain.term offset).Means operators alternatives) (hle : offset ≤ offset') :
    (chain.term offset').Means operators alternatives := by
  obtain ⟨n, rfl⟩ := Nat.exists_eq_add_of_le hle
  rw [chain.term_add]
  exact h.shift n

end RequestQuery
