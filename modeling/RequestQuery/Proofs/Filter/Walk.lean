import RequestQuery.Filter.Expansion
import RequestQuery.Proofs.Filter.Formula
import RequestQuery.Proofs.Filter.Soundness

/-!
# Bracket short-hands as walks

The meaning of bracket short-hands without passes over leaves. A walk goes through a path from left to
right and notes the names and endings it meets; at a group it goes into every branch, and what stands
behind the group is the continuation of each. Where the passes over leaves succeed, the walks go to the
leaves, and where they fail, some walk goes on behind an ending.
-/

namespace RequestQuery

/-- What a walk meets. -/
inductive Mark where
  | name (name : String)
  | ending (ending : Ending)

/-- What a walk has met, and the span of the path it went into last. -/
structure Walk where
  marks : List Mark
  span : Span

namespace Walk

def start : Walk := ⟨[], .point 0⟩

/-- A walk goes on to a further name. -/
def onto (name : String) (w : Walk) : Walk := { w with marks := w.marks ++ [.name name] }

/-- A walk goes on to the ending of a path, if there is one. -/
def past (ending : Option Ending) (w : Walk) : Walk :=
  { w with marks := w.marks ++ ending.toList.map .ending }

/-- One ending, and that last. -/
def Complete (w : Walk) : Prop :=
  ∃ (names : List String) (e : Ending), w.marks = names.map .name ++ [.ending e]

/-- No ending at all. -/
def Open (w : Walk) : Prop := ∃ names : List String, w.marks = names.map .name

/-- Something follows an ending. -/
def Overrun (w : Walk) : Prop := ∃ before e m after, w.marks = before ++ .ending e :: m :: after

end Walk

mutual
/-- The walks through a term from `w` on, `k` their continuation. -/
def Term.reach {β : Type} : Term → Walk → (Walk → Formula β) → Formula β
  | .any terms, w, k => .any (Term.reachList terms w k)
  | .all terms, w, k => .all (Term.reachList terms w k)
  | .path head steps ending span, w, k =>
      Step.reach steps { w.onto head.value with span := span } fun v => k (v.past ending)

def Term.reachList {β : Type} : List Term → Walk → (Walk → Formula β) → List (Formula β)
  | [], _, _ => []
  | term :: rest, w, k => term.reach w k :: Term.reachList rest w k

def Step.reach {β : Type} : List Step → Walk → (Walk → Formula β) → Formula β
  | [], w, k => k w
  | .segment name :: rest, w, k => Step.reach rest (w.onto name.value) k
  | .group term :: rest, w, k => term.reach w fun v => Step.reach rest v k
end

def Term.walks (term : Term) : Formula Walk := term.reach .start .leaf

mutual
/-- No node of a term is without parts. -/
def Term.Proper : Term → Prop
  | .any terms => terms ≠ [] ∧ Term.ProperList terms
  | .all terms => terms ≠ [] ∧ Term.ProperList terms
  | .path _ steps _ _ => Step.ProperList steps

def Term.ProperList : List Term → Prop
  | [] => True
  | term :: rest => term.Proper ∧ Term.ProperList rest

def Step.ProperList : List Step → Prop
  | [] => True
  | .segment _ :: rest => Step.ProperList rest
  | .group term :: rest => term.Proper ∧ Step.ProperList rest
end

namespace Grammar

private theorem collapse_proper (level : Level) {terms : List Term} (hne : terms ≠ [])
    (h : Term.ProperList terms) : (Term.collapse level.wrap terms).Proper := by
  match terms with
  | [] => exact absurd rfl hne
  | [term] => exact h.1
  | first :: second :: more => cases level <;> exact ⟨hne, h⟩

theorem Chain.terms_ne_nil {level : Level} (chain : Chain level) (offset : Nat) :
    chain.terms offset ≠ [] := by
  cases chain <;> simp [Chain.terms]

mutual
private theorem Chain.proper {level : Level} : ∀ (chain : Chain level) (offset : Nat),
    Term.ProperList (chain.terms offset)
  | .last part, offset => ⟨part.proper offset, trivial⟩
  | .cons part _ _ rest, offset => ⟨part.proper offset, rest.proper _⟩

private theorem Part.proper {level : Level} : ∀ (part : Part level) (offset : Nat),
    (part.term offset).Proper
  | .conjunction chain, offset =>
      collapse_proper .all (chain.terms_ne_nil offset) (chain.proper offset)
  | .parentheses _ inner _, _ => collapse_proper .any (inner.terms_ne_nil _) (inner.proper _)
  | .path _ steps _, _ => steps.proper _

private theorem Steps.proper : ∀ (steps : Steps) (offset : Nat), Step.ProperList (steps.steps offset)
  | .done, _ => trivial
  | .segment _ rest, _ => rest.proper _
  | .group _ inner _ rest, _ =>
      ⟨collapse_proper .any (inner.terms_ne_nil _) (inner.proper _), rest.proper _⟩
end

theorem Derivation.proper (d : Derivation) : d.term.Proper :=
  collapse_proper .any (d.expression.terms_ne_nil _) (d.expression.proper _)

end Grammar

theorem Term.proper_of_parse {operators : OperatorTable} {source : String} {term : Term}
    (h : Term.parse operators source = .ok term) : term.Proper := by
  obtain ⟨d, -, -, -, rfl⟩ := Grammar.exists_derivation h
  exact d.proper

namespace Leaf

/-- The walk that comes to a leaf from `w`. -/
def after (leaf : Leaf) (w : Walk) : Walk :=
  ⟨w.marks ++ (leaf.path.map .name ++ leaf.ending.toList.map .ending), leaf.span⟩

private theorem after_extend {leaf : Leaf} (h : leaf.ending = none) (name : String) (w : Walk) :
    ({ leaf with path := leaf.path ++ [name] } : Leaf).after w = (leaf.after w).onto name := by
  simp [after, Walk.onto, h]

private theorem after_branch {leaf : Leaf} (h : leaf.ending = none) (below : Leaf) (w : Walk) :
    ({ below with path := leaf.path ++ below.path } : Leaf).after w = below.after (leaf.after w) := by
  simp [after, h]

private theorem after_close {leaf : Leaf} (h : leaf.ending = none) (e : Ending) (w : Walk) :
    ({ leaf with ending := some e } : Leaf).after w = (leaf.after w).past (some e) := by
  simp [after, Walk.past, h]

private theorem overrun_of_closed {leaf : Leaf} (h : leaf.ending ≠ none) {w v : Walk} {m : Mark}
    (hv : (leaf.after w).marks ++ [m] <+: v.marks) : v.Overrun := by
  obtain ⟨e, he⟩ := Option.ne_none_iff_exists'.mp h
  obtain ⟨after, hafter⟩ := hv
  exact ⟨w.marks ++ leaf.path.map .name, e, m, after, by simp [← hafter, Leaf.after, he]⟩

theorem not_overrun_after (leaf : Leaf) : ¬(leaf.after .start).Overrun := by
  obtain ⟨path, ending, span⟩ := leaf
  rintro ⟨before, e, m, after, h⟩
  simp only [Leaf.after, Walk.start, List.nil_append] at h
  -- The ending would be among the names, or in front of the last mark.
  induction path generalizing before with
  | nil =>
      have hlength := congrArg List.length h
      simp only [List.map_nil, List.nil_append, List.length_map, List.length_append,
        List.length_cons] at hlength
      have hle := ending.length_toList_le
      omega
  | cons name path ih =>
      cases before with
      | nil => exact absurd (List.cons.inj h).1 (by simp)
      | cons _ before => exact ih before (List.cons.inj h).2

theorem complete_after {leaf : Leaf} : (leaf.after .start).Complete ↔ leaf.ending ≠ none := by
  cases hending : leaf.ending with
  | some e => exact ⟨by simp, fun _ => ⟨leaf.path, e, by simp [after, Walk.start, hending]⟩⟩
  | none =>
      refine ⟨?_, fun h => absurd rfl h⟩
      rintro ⟨names, e, h⟩
      have hmem : Mark.ending e ∈ leaf.path.map Mark.name := by
        have hmarks : leaf.path.map Mark.name = names.map .name ++ [.ending e] := by
          simpa [after, Walk.start, hending] using h
        rw [hmarks]
        simp
      simp at hmem

/-- The pass refuses closed leaves and puts `g leaf` in place of an open one. -/
private structure Opens (f : Leaf → Except Fault (Formula Leaf)) (g : Leaf → Formula Leaf) : Prop where
  opened : ∀ leaf, leaf.ending = none → f leaf = .ok (g leaf)
  closed : ∀ leaf, leaf.ending ≠ none →
    ∃ fault, f leaf = .error fault ∧ fault.cause.code = .unexpectedToken

private theorem opens_of_checkOpen {f : Leaf → Except Fault (Formula Leaf)}
    {g : Leaf → Formula Leaf} (place : Span)
    (h : ∀ leaf, f leaf = match leaf.checkOpen place with
      | .ok () => .ok (g leaf)
      | .error fault => .error fault) : Opens f g := by
  constructor
  · intro leaf hopen
    simp only [h, checkOpen, hopen]
  · intro leaf hclosed
    obtain ⟨e, he⟩ := Option.ne_none_iff_exists'.mp hclosed
    exact ⟨⟨.alreadyCompared leaf.path e.1.value, place⟩, by simp only [h, checkOpen, he], rfl⟩

private theorem opens_extend (name : Spanned String) :
    Opens (extend name) fun leaf => .leaf { leaf with path := leaf.path ++ [name.value] } :=
  opens_of_checkOpen name.span fun _ => rfl

private theorem opens_branch (place : Span) (inner : Formula Leaf) :
    Opens (branch place inner) fun leaf =>
      inner.map fun below => { below with path := leaf.path ++ below.path } :=
  opens_of_checkOpen place fun _ => rfl

private theorem opens_close (e : Ending) :
    Opens (close e) fun leaf => .leaf { leaf with ending := some e } :=
  opens_of_checkOpen e.1.span fun _ => rfl

private theorem Opens.of_substitute_ok {f : Leaf → Except Fault (Formula Leaf)}
    {g : Leaf → Formula Leaf} (hf : Opens f g) {formula formula' : Formula Leaf}
    (h : formula.substitute f = .ok formula') :
    (∀ leaf ∈ formula.leaves, leaf.ending = none) ∧ formula' = formula.graft g := by
  have hopen : ∀ leaf ∈ formula.leaves, leaf.ending = none := by
    have hnone : Formula.refusal (formula.substitute f) = none := Formula.refusal_eq_none.mpr ⟨_, h⟩
    rw [Formula.refusal_substitute, List.findSome?_eq_none_iff] at hnone
    intro leaf hleaf
    by_contra hclosed
    obtain ⟨fault, hfault, -⟩ := hf.closed leaf hclosed
    have hrefusal := hnone leaf hleaf
    simp [Formula.refusal, hfault] at hrefusal
  refine ⟨hopen, ?_⟩
  rw [Formula.substitute_eq_ok fun leaf hleaf => hf.opened leaf (hopen leaf hleaf)] at h
  exact (Except.ok.inj h).symm

private theorem Opens.of_substitute_error {f : Leaf → Except Fault (Formula Leaf)}
    {g : Leaf → Formula Leaf} (hf : Opens f g) {formula : Formula Leaf} {fault : Fault}
    (h : formula.substitute f = .error fault) :
    fault.cause.code = .unexpectedToken ∧ ∃ leaf ∈ formula.leaves, leaf.ending ≠ none := by
  rw [← Formula.refusal_eq_some, Formula.refusal_substitute] at h
  obtain ⟨leaf, hleaf, hrefusal⟩ := List.exists_of_findSome?_eq_some h
  have hfault := Formula.refusal_eq_some.mp hrefusal
  have hclosed : leaf.ending ≠ none := by
    intro hopen
    rw [hf.opened leaf hopen] at hfault
    cases hfault
  obtain ⟨fault', hfault', hcode⟩ := hf.closed leaf hclosed
  rw [hfault] at hfault'
  cases hfault'
  exact ⟨hcode, leaf, hleaf, hclosed⟩

end Leaf

section Reach

variable {β : Type}

mutual
/-- Where the passes succeed, the walks go to the leaves and nowhere else. -/
theorem Term.reach_of_leaves : ∀ (term : Term) {formula : Formula Leaf},
    term.leaves = .ok formula → ∀ (w : Walk) (k : Walk → Formula β),
      term.reach w k = formula.graft fun leaf => k (leaf.after w)
  | .any terms, formula, h, w, k => by
      simp only [Term.leaves] at h
      split at h <;> cases h
      next parts hparts =>
        rw [Term.reach, Formula.graft_any, Term.reachList_of_leavesList terms hparts]
  | .all terms, formula, h, w, k => by
      simp only [Term.leaves] at h
      split at h <;> cases h
      next parts hparts =>
        rw [Term.reach, Formula.graft_all, Term.reachList_of_leavesList terms hparts]
  | .path head steps ending span, formula, h, w, k => by
      simp only [Term.leaves] at h
      split at h
      next behind hbehind =>
        have hsteps := Step.reach_of_walk steps hbehind w fun v => k (v.past ending)
        rw [Formula.graft_leaf] at hsteps
        rw [Term.reach]
        refine Eq.trans ?_ (hsteps.trans ?_)
        · simp [Leaf.after, Walk.onto]
        · cases ending with
          | none =>
              cases h
              simp [Walk.past]
          | some e =>
              obtain ⟨hopen, rfl⟩ := (Leaf.opens_close e).of_substitute_ok h
              rw [Formula.graft_graft]
              apply Formula.graft_congr
              intro leaf hleaf
              rw [Formula.graft_leaf, Leaf.after_close (hopen leaf hleaf)]
      next => cases h

private theorem Term.reachList_of_leavesList : ∀ (terms : List Term) {parts : List (Formula Leaf)},
    Term.leavesList terms = .ok parts → ∀ (w : Walk) (k : Walk → Formula β),
      Term.reachList terms w k = parts.map (Formula.graft fun leaf => k (leaf.after w))
  | [], parts, h, w, k => by
      cases h
      rfl
  | term :: rest, parts, h, w, k => by
      simp only [Term.leavesList] at h
      split at h
      next part hpart =>
        split at h <;> cases h
        next more hmore =>
          rw [Term.reachList, term.reach_of_leaves hpart, Term.reachList_of_leavesList rest hmore,
            List.map_cons]
      next => cases h

private theorem Step.reach_of_walk : ∀ (steps : List Step) {formula formula' : Formula Leaf},
    Step.walk steps formula = .ok formula' → ∀ (w : Walk) (k : Walk → Formula β),
      (formula.graft fun leaf => Step.reach steps (leaf.after w) k) =
        formula'.graft fun leaf => k (leaf.after w)
  | [], formula, formula', h, w, k => by
      cases h
      simp only [Step.reach]
  | .segment name :: rest, formula, formula', h, w, k => by
      simp only [Step.walk] at h
      split at h
      next behind hbehind =>
        obtain ⟨hopen, rfl⟩ := (Leaf.opens_extend name).of_substitute_ok hbehind
        rw [← Step.reach_of_walk rest h w k, Formula.graft_graft]
        apply Formula.graft_congr
        intro leaf hleaf
        rw [Formula.graft_leaf, Leaf.after_extend (hopen leaf hleaf), Step.reach]
      next => cases h
  | .group term :: rest, formula, formula', h, w, k => by
      simp only [Step.walk] at h
      split at h
      next inner hinner =>
        split at h
        next behind hbehind =>
          obtain ⟨hopen, rfl⟩ := (Leaf.opens_branch term.start inner).of_substitute_ok hbehind
          rw [← Step.reach_of_walk rest h w k, Formula.graft_graft]
          apply Formula.graft_congr
          intro leaf hleaf
          rw [Step.reach, term.reach_of_leaves hinner, Formula.map_eq_graft, Formula.graft_graft]
          apply Formula.graft_congr
          intro below _
          rw [Formula.graft_leaf, Leaf.after_branch (hopen leaf hleaf)]
        next => cases h
      next => cases h
end

end Reach

/-- Some walk goes on wherever the continuation is entered. -/
def Extends (k : Walk → Formula Walk) : Prop :=
  ∀ w, ∃ v ∈ (k w).leaves, w.marks <+: v.marks

theorem extends_leaf : Extends .leaf := fun w => ⟨w, by simp, List.prefix_rfl⟩

private theorem Extends.past {k : Walk → Formula Walk} (hk : Extends k) (ending : Option Ending) :
    Extends fun v => k (v.past ending) := by
  intro v
  obtain ⟨v', hv', hmarks⟩ := hk (v.past ending)
  exact ⟨v', hv', (List.prefix_append _ _).trans hmarks⟩

mutual
private theorem Term.exists_reach : ∀ (term : Term), term.Proper →
    ∀ (w : Walk) (k : Walk → Formula Walk), Extends k →
      ∃ v ∈ (term.reach w k).leaves, ∃ name, w.marks ++ [.name name] <+: v.marks
  | .any [], hproper, _, _, _ => absurd rfl hproper.1
  | .all [], hproper, _, _, _ => absurd rfl hproper.1
  | .any (term :: rest), hproper, w, k, hk => by
      obtain ⟨v, hv, hname⟩ := term.exists_reach hproper.2.1 w k hk
      exact ⟨v, by simp [Term.reach, Term.reachList, hv], hname⟩
  | .all (term :: rest), hproper, w, k, hk => by
      obtain ⟨v, hv, hname⟩ := term.exists_reach hproper.2.1 w k hk
      exact ⟨v, by simp [Term.reach, Term.reachList, hv], hname⟩
  | .path head steps ending span, hproper, w, k, hk => by
      obtain ⟨v, hv, hmarks⟩ := Step.exists_reach steps hproper _ _ (hk.past ending)
      exact ⟨v, hv, head.value, hmarks⟩

private theorem Step.exists_reach : ∀ (steps : List Step), Step.ProperList steps →
    ∀ (w : Walk) (k : Walk → Formula Walk), Extends k →
      ∃ v ∈ (Step.reach steps w k).leaves, w.marks <+: v.marks
  | [], _, w, k, hk => hk w
  | .segment name :: rest, hproper, w, k, hk => by
      obtain ⟨v, hv, hmarks⟩ := Step.exists_reach rest hproper (w.onto name.value) k hk
      exact ⟨v, hv, (List.prefix_append _ _).trans hmarks⟩
  | .group term :: rest, hproper, w, k, hk => by
      obtain ⟨v, hv, name, hmarks⟩ := term.exists_reach hproper.1 w (fun v => Step.reach rest v k)
        fun v => Step.exists_reach rest hproper.2 v k hk
      exact ⟨v, hv, (List.prefix_append _ _).trans hmarks⟩
end

private theorem Term.leaves_ne_nil {term : Term} (hproper : term.Proper) {formula : Formula Leaf}
    (h : term.leaves = .ok formula) : formula.leaves ≠ [] := by
  obtain ⟨v, hv, -⟩ := term.exists_reach hproper .start .leaf extends_leaf
  rw [term.reach_of_leaves h, Formula.leaves_graft] at hv
  intro hnil
  rw [hnil] at hv
  cases hv

private theorem graft_leaves_ne_nil {formula : Formula Leaf} {g : Leaf → Formula Leaf}
    (h : formula.leaves ≠ []) (hg : ∀ leaf, (g leaf).leaves ≠ []) : (formula.graft g).leaves ≠ [] := by
  obtain ⟨leaf, hleaf⟩ := List.exists_mem_of_ne_nil _ h
  obtain ⟨below, hbelow⟩ := List.exists_mem_of_ne_nil _ (hg leaf)
  apply List.ne_nil_of_mem (a := below)
  rw [Formula.leaves_graft, List.mem_flatMap]
  exact ⟨leaf, hleaf, hbelow⟩

mutual
/-- Where a pass fails, some walk goes on behind an ending. -/
theorem Term.overrun_of_leaves : ∀ (term : Term) {fault : Fault},
    term.leaves = .error fault → term.Proper → fault.cause.code = .unexpectedToken ∧
      ∀ (w : Walk) (k : Walk → Formula Walk), Extends k →
        ∃ v ∈ (term.reach w k).leaves, v.Overrun
  | .any terms, fault, h, hproper => by
      simp only [Term.leaves] at h
      split at h <;> cases h
      next hparts =>
        obtain ⟨hcode, hreach⟩ := Term.overrun_of_leavesList terms hparts hproper.2
        refine ⟨hcode, fun w k hk => ?_⟩
        obtain ⟨part, hpart, v, hv, hoverrun⟩ := hreach w k hk
        exact ⟨v, by simpa [Term.reach] using ⟨part, hpart, hv⟩, hoverrun⟩
  | .all terms, fault, h, hproper => by
      simp only [Term.leaves] at h
      split at h <;> cases h
      next hparts =>
        obtain ⟨hcode, hreach⟩ := Term.overrun_of_leavesList terms hparts hproper.2
        refine ⟨hcode, fun w k hk => ?_⟩
        obtain ⟨part, hpart, v, hv, hoverrun⟩ := hreach w k hk
        exact ⟨v, by simpa [Term.reach] using ⟨part, hpart, hv⟩, hoverrun⟩
  | .path head steps ending span, fault, h, hproper => by
      have hhead : ∀ w : Walk, (⟨[head.value], none, span⟩ : Leaf).after w =
          { w.onto head.value with span := span } := by
        intro w
        simp [Leaf.after, Walk.onto]
      simp only [Term.leaves] at h
      split at h
      next behind hbehind =>
        cases ending with
        | none => cases h
        | some e =>
            obtain ⟨hcode, leaf, hleaf, hclosed⟩ := (Leaf.opens_close e).of_substitute_error h
            refine ⟨hcode, fun w k hk => ?_⟩
            have hsteps := Step.reach_of_walk steps hbehind w fun v => k (v.past (some e))
            rw [Formula.graft_leaf, hhead] at hsteps
            rw [Term.reach, hsteps, Formula.leaves_graft]
            obtain ⟨v, hv, hmarks⟩ := hk ((leaf.after w).past (some e))
            exact ⟨v, List.mem_flatMap.mpr ⟨leaf, hleaf, hv⟩, Leaf.overrun_of_closed hclosed hmarks⟩
      next hbehind =>
        cases h
        obtain ⟨hcode, hreach⟩ := Step.overrun_of_walk steps hbehind hproper (by simp)
        refine ⟨hcode, fun w k hk => ?_⟩
        obtain ⟨leaf, hleaf, v, hv, hoverrun⟩ := hreach w _ (hk.past ending)
        rw [Formula.leaves_leaf, List.mem_singleton] at hleaf
        subst hleaf
        rw [hhead] at hv
        exact ⟨v, hv, hoverrun⟩

private theorem Term.overrun_of_leavesList : ∀ (terms : List Term) {fault : Fault},
    Term.leavesList terms = .error fault → Term.ProperList terms →
      fault.cause.code = .unexpectedToken ∧
        ∀ (w : Walk) (k : Walk → Formula Walk), Extends k →
          ∃ part ∈ Term.reachList terms w k, ∃ v ∈ part.leaves, v.Overrun
  | [], _, h, _ => by cases h
  | term :: rest, fault, h, hproper => by
      simp only [Term.leavesList] at h
      split at h
      next part hpart =>
        split at h <;> cases h
        next hrest =>
          obtain ⟨hcode, hreach⟩ := Term.overrun_of_leavesList rest hrest hproper.2
          refine ⟨hcode, fun w k hk => ?_⟩
          obtain ⟨part, hpart, hoverrun⟩ := hreach w k hk
          exact ⟨part, List.mem_cons_of_mem _ hpart, hoverrun⟩
      next hterm =>
        cases h
        obtain ⟨hcode, hreach⟩ := term.overrun_of_leaves hterm hproper.1
        exact ⟨hcode, fun w k hk => ⟨_, List.mem_cons_self, hreach w k hk⟩⟩

private theorem Step.overrun_of_walk : ∀ (steps : List Step) {formula : Formula Leaf} {fault : Fault},
    Step.walk steps formula = .error fault → Step.ProperList steps → formula.leaves ≠ [] →
      fault.cause.code = .unexpectedToken ∧
        ∀ (w : Walk) (k : Walk → Formula Walk), Extends k →
          ∃ leaf ∈ formula.leaves, ∃ v ∈ (Step.reach steps (leaf.after w) k).leaves, v.Overrun
  | [], _, _, h, _, _ => by cases h
  | .segment name :: rest, formula, fault, h, hproper, hne => by
      simp only [Step.walk] at h
      split at h
      next behind hbehind =>
        obtain ⟨hopen, rfl⟩ := (Leaf.opens_extend name).of_substitute_ok hbehind
        obtain ⟨hcode, hreach⟩ := Step.overrun_of_walk rest h hproper
          (graft_leaves_ne_nil hne fun _ => by simp)
        refine ⟨hcode, fun w k hk => ?_⟩
        obtain ⟨_, hleaf', v, hv, hoverrun⟩ := hreach w k hk
        obtain ⟨leaf, hleaf, rfl⟩ := by simpa [Formula.leaves_graft] using hleaf'
        rw [Leaf.after_extend (hopen leaf hleaf)] at hv
        exact ⟨leaf, hleaf, v, hv, hoverrun⟩
      next hbehind =>
        cases h
        obtain ⟨hcode, leaf, hleaf, hclosed⟩ := (Leaf.opens_extend name).of_substitute_error hbehind
        refine ⟨hcode, fun w k hk => ⟨leaf, hleaf, ?_⟩⟩
        obtain ⟨v, hv, hmarks⟩ :=
          Step.exists_reach rest hproper ((leaf.after w).onto name.value) k hk
        exact ⟨v, hv, Leaf.overrun_of_closed hclosed hmarks⟩
  | .group term :: rest, formula, fault, h, hproper, hne => by
      have hrest : ∀ {k : Walk → Formula Walk}, Extends k → Extends fun v => Step.reach rest v k :=
        fun hk v => Step.exists_reach rest hproper.2 v _ hk
      simp only [Step.walk] at h
      split at h
      next inner hinner =>
        split at h
        next behind hbehind =>
          obtain ⟨hopen, rfl⟩ := (Leaf.opens_branch term.start inner).of_substitute_ok hbehind
          obtain ⟨hcode, hreach⟩ := Step.overrun_of_walk rest h hproper.2
            (graft_leaves_ne_nil hne fun _ => by
              simpa [Formula.leaves_map] using Term.leaves_ne_nil hproper.1 hinner)
          refine ⟨hcode, fun w k hk => ?_⟩
          obtain ⟨_, hleaf', v, hv, hoverrun⟩ := hreach w k hk
          rw [Formula.leaves_graft, List.mem_flatMap] at hleaf'
          obtain ⟨leaf, hleaf, hbelow'⟩ := hleaf'
          rw [Formula.leaves_map, List.mem_map] at hbelow'
          obtain ⟨below, hbelow, rfl⟩ := hbelow'
          rw [Leaf.after_branch (hopen leaf hleaf)] at hv
          refine ⟨leaf, hleaf, v, ?_, hoverrun⟩
          rw [Step.reach, term.reach_of_leaves hinner, Formula.leaves_graft]
          exact List.mem_flatMap.mpr ⟨below, hbelow, hv⟩
        next hbehind =>
          cases h
          obtain ⟨hcode, leaf, hleaf, hclosed⟩ :=
            (Leaf.opens_branch term.start inner).of_substitute_error hbehind
          refine ⟨hcode, fun w k hk => ⟨leaf, hleaf, ?_⟩⟩
          obtain ⟨v, hv, name, hmarks⟩ := term.exists_reach hproper.1 (leaf.after w) _ (hrest hk)
          exact ⟨v, hv, Leaf.overrun_of_closed hclosed hmarks⟩
      next hterm =>
        cases h
        obtain ⟨hcode, hreach⟩ := term.overrun_of_leaves hterm hproper.1
        obtain ⟨leaf, hleaf⟩ := List.exists_mem_of_ne_nil _ hne
        exact ⟨hcode, fun w k hk => ⟨leaf, hleaf, hreach (leaf.after w) _ (hrest hk)⟩⟩
end

end RequestQuery
