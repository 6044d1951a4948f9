import RequestQuery.Proofs.Filter.Grouping

/-!
# Filters without their places

The places of names, tokens and comparisons are told in faults only. Terms that differ in places and in
needless groups stand for the same filter, or have faults of one cause: every step of their expansion
makes outcomes that match of outcomes that match.
-/

namespace RequestQuery

open Grammar (Level)

/-- Both outcomes are results that are related, or faults of one cause. -/
inductive Matches {α β : Type} (related : α → β → Prop) : Except Fault α → Except Fault β → Prop where
  | ok {a : α} {b : β} (h : related a b) : Matches related (.ok a) (.ok b)
  | error {fault fault' : Fault} (h : fault.cause = fault'.cause) :
      Matches related (.error fault) (.error fault')

namespace Matches

variable {α β γ : Type}

@[elab_as_elim]
theorem elim {related : α → β → Prop} {motive : Except Fault α → Except Fault β → Prop}
    {r : Except Fault α} {r' : Except Fault β} (h : Matches related r r')
    (ok : ∀ a b, related a b → motive (.ok a) (.ok b))
    (error : ∀ fault fault', fault.cause = fault'.cause → motive (.error fault) (.error fault')) :
    motive r r' := by
  cases h with
  | ok h => exact ok _ _ h
  | error h => exact error _ _ h

theorem refl {related : α → α → Prop} (hrefl : ∀ a, related a a) (r : Except Fault α) :
    Matches related r r := by
  cases r with
  | ok a => exact .ok (hrefl a)
  | error fault => exact .error rfl

theorem symm {related : α → α → Prop} (hsymm : ∀ a b, related a b → related b a)
    {r r' : Except Fault α} (h : Matches related r r') : Matches related r' r := by
  cases h with
  | ok h => exact .ok (hsymm _ _ h)
  | error h => exact .error h.symm

theorem trans {related : α → α → Prop} (htrans : ∀ a b c, related a b → related b c → related a c)
    {r r' r'' : Except Fault α} (h : Matches related r r') (h' : Matches related r' r'') :
    Matches related r r'' := by
  cases h with
  | ok h =>
      cases h' with
      | ok h' => exact .ok (htrans _ _ _ h h')
  | error h =>
      cases h' with
      | error h' => exact .error (h.trans h')

end Matches

namespace Formula

variable {α α' β β' : Type}

theorem matches_substitute {related : Formula β → Formula β' → Prop}
    (hnode : ∀ (level : Level) us us', List.Forall₂ related us us' →
      related (level.node us) (level.node us'))
    {f : α → Except Fault (Formula β)} {f' : α' → Except Fault (Formula β')} {s : α → α'}
    (h : ∀ a, Matches related (f a) (f' (s a))) (t : Formula α) :
    Matches related (t.substitute f) ((t.map s).substitute f') := by
  have hlist : ∀ parts : List (Formula α),
      (∀ part ∈ parts, Matches related (part.substitute f) ((part.map s).substitute f')) →
        Matches (List.Forall₂ related) (substituteList f parts)
          (substituteList f' (parts.map (map s))) := by
    intro parts hparts
    induction parts with
    | nil => exact .ok .nil
    | cons part rest ih =>
        rw [List.forall_mem_cons] at hparts
        simp only [List.map_cons, substituteList]
        refine hparts.1.elim (fun u u' hpart => ?_) fun _ _ h => .error h
        exact (ih hparts.2).elim (fun us us' hrest => .ok (.cons hpart hrest)) fun _ _ h => .error h
  induction t using inductionOn with
  | leaf a =>
      rw [map_leaf, substitute, substitute]
      exact h a
  | any parts ih =>
      rw [map_any, substitute, substitute]
      exact (hlist parts ih).elim (fun us us' hus => .ok (hnode .any us us' hus)) fun _ _ h => .error h
  | all parts ih =>
      rw [map_all, substitute, substitute]
      exact (hlist parts ih).elim (fun us us' hus => .ok (hnode .all us us' hus)) fun _ _ h => .error h

end Formula

def Ending.unplaced (ending : Ending) : Ending := (⟨ending.1.value, .point 0⟩, ending.2)

def Leaf.unplaced (leaf : Leaf) : Leaf := ⟨leaf.path, leaf.ending.map Ending.unplaced, .point 0⟩

/-- Formulas of leaves that differ in places and needless groups only. -/
def SameLeaves (f f' : Formula Leaf) : Prop :=
  (f.map Leaf.unplaced).Equivalent (f'.map Leaf.unplaced)

namespace SameLeaves

theorem of_eq {f f' : Formula Leaf} (h : f.map Leaf.unplaced = f'.map Leaf.unplaced) :
    SameLeaves f f' := by
  unfold SameLeaves
  rw [h]
  exact .refl _

theorem symm (f f' : Formula Leaf) (h : SameLeaves f f') : SameLeaves f' f :=
  Formula.Equivalent.symm h

theorem trans (f f' f'' : Formula Leaf) (h : SameLeaves f f') (h' : SameLeaves f' f'') :
    SameLeaves f f'' :=
  Formula.Equivalent.trans h h'

theorem node (level : Level) (fs fs' : List (Formula Leaf)) (h : List.Forall₂ SameLeaves fs fs') :
    SameLeaves (level.node fs) (level.node fs') := by
  unfold SameLeaves
  rw [Formula.map_node, Formula.map_node]
  apply Formula.Equivalent.node
  rw [List.forall₂_map_left_iff, List.forall₂_map_right_iff]
  exact h

/-- The same pass over equivalent formulas is refused at the same leaf or gives equivalent ones. -/
private theorem substitute_equivalent {f f' : Formula Leaf} (h : f.Equivalent f')
    (s : Leaf → Except Fault (Formula Leaf)) :
    Matches SameLeaves (f.substitute s) (f'.substitute s) := by
  have hrefusal : Formula.refusal (f.substitute s) = Formula.refusal (f'.substitute s) := by
    rw [Formula.refusal_substitute, Formula.refusal_substitute, h.leaves]
  cases hf : f.substitute s with
  | error fault =>
      rw [hf] at hrefusal
      rw [Formula.refusal_eq_some.mp hrefusal.symm]
      exact .error rfl
  | ok u =>
      let g : Leaf → Formula Leaf := fun leaf => (s leaf).toOption.getD (.any [])
      have hg : ∀ leaf ∈ f.leaves, s leaf = .ok (g leaf) := by
        have hnone : Formula.refusal (f.substitute s) = none := by rw [hf]; rfl
        rw [Formula.refusal_substitute, List.findSome?_eq_none_iff] at hnone
        intro leaf hleaf
        obtain ⟨v, hv⟩ := Formula.refusal_eq_none.mp (hnone leaf hleaf)
        simp only [g, hv, Except.toOption, Option.getD_some]
      rw [Formula.substitute_eq_ok (h.leaves ▸ hg), ← hf, Formula.substitute_eq_ok hg]
      exact .ok ((h.graft g).map Leaf.unplaced)

theorem substitute {f f' : Formula Leaf} (hf : SameLeaves f f')
    {s s' : Leaf → Except Fault (Formula Leaf)}
    (h : ∀ leaf, Matches SameLeaves (s leaf) (s' leaf.unplaced))
    (h' : ∀ leaf, Matches SameLeaves (s' leaf) (s' leaf.unplaced)) :
    Matches SameLeaves (f.substitute s) (f'.substitute s') :=
  ((Formula.matches_substitute node h f).trans trans (substitute_equivalent hf s')).trans trans
    ((Formula.matches_substitute node h' f').symm symm)

end SameLeaves

private theorem matches_extend {name name' : Spanned String} (h : name.value = name'.value)
    (leaf : Leaf) : Matches SameLeaves (leaf.extend name) (leaf.unplaced.extend name') := by
  obtain ⟨path, _ | ending, span⟩ := leaf
  · apply Matches.ok
    apply SameLeaves.of_eq
    simp [Leaf.unplaced, h]
  · exact .error rfl

private theorem matches_branch {place place' : Span} {inner inner' : Formula Leaf}
    (h : SameLeaves inner inner') (leaf : Leaf) :
    Matches SameLeaves (leaf.branch place inner) (leaf.unplaced.branch place' inner') := by
  obtain ⟨path, _ | ending, span⟩ := leaf
  · apply Matches.ok
    have hunder := h.map fun below => { below with path := path ++ below.path }
    rw [Formula.map_map, Formula.map_map] at hunder
    unfold SameLeaves
    rw [Formula.map_map, Formula.map_map]
    exact hunder
  · exact .error rfl

private theorem matches_close {ending ending' : Ending} (h : ending.unplaced = ending'.unplaced)
    (leaf : Leaf) : Matches SameLeaves (leaf.close ending) (leaf.unplaced.close ending') := by
  obtain ⟨path, _ | own, span⟩ := leaf
  · apply Matches.ok
    apply SameLeaves.of_eq
    simp [Leaf.unplaced, h]
  · exact .error rfl

/-- Terms that stand for the same leaves up to places and needless groups, or have faults of one
cause. -/
def Term.Alike (t t' : Term) : Prop := Matches SameLeaves t.leaves t'.leaves

/-- Steps of a path that differ in places and needless groups only. -/
inductive Step.Alike : Step → Step → Prop where
  | segment {name name' : Spanned String} (h : name.value = name'.value) :
      Step.Alike (.segment name) (.segment name')
  | group {t t' : Term} (h : t.Alike t') : Step.Alike (.group t) (.group t')

theorem Step.walk_alike {steps steps' : List Step} (hsteps : List.Forall₂ Step.Alike steps steps')
    {f f' : Formula Leaf} (hf : SameLeaves f f') :
    Matches SameLeaves (Step.walk steps f) (Step.walk steps' f') := by
  induction hsteps generalizing f f' with
  | nil => exact .ok hf
  | cons hstep _ ih =>
      cases hstep with
      | segment h =>
          rw [Step.walk, Step.walk]
          exact (hf.substitute (matches_extend h) (matches_extend rfl)).elim
            (fun u u' hu => ih hu) fun _ _ h => .error h
      | group h =>
          rw [Step.walk, Step.walk]
          refine h.elim (fun inner inner' hinner => ?_) fun _ _ h => .error h
          have hself : SameLeaves inner' inner' := .of_eq rfl
          simp only
          exact (hf.substitute (matches_branch hinner) (matches_branch hself)).elim
            (fun u u' hu => ih hu) fun _ _ h => .error h

namespace Term.Alike

theorem symm {t t' : Term} (h : t.Alike t') : t'.Alike t := Matches.symm SameLeaves.symm h

theorem trans {t t' t'' : Term} (h : t.Alike t') (h' : t'.Alike t'') : t.Alike t'' :=
  Matches.trans SameLeaves.trans h h'

theorem path {head head' : Spanned String} (hhead : head.value = head'.value)
    {steps steps' : List Step} (hsteps : List.Forall₂ Step.Alike steps steps')
    {ending ending' : Option Ending} (hending : ending.map Ending.unplaced = ending'.map Ending.unplaced)
    (span span' : Span) : (Term.path head steps ending span).Alike (.path head' steps' ending' span') := by
  have hleaf : SameLeaves (.leaf ⟨[head.value], none, span⟩) (.leaf ⟨[head'.value], none, span'⟩) := by
    apply SameLeaves.of_eq
    simp [Leaf.unplaced, hhead]
  unfold Term.Alike
  rw [Term.leaves, Term.leaves]
  refine (Step.walk_alike hsteps hleaf).elim (fun f f' hf => ?_) fun _ _ h => .error h
  cases ending with
  | none =>
      cases ending' with
      | none => exact .ok hf
      | some ending' => cases hending
  | some ending =>
      cases ending' with
      | none => cases hending
      | some ending' =>
          exact hf.substitute (matches_close (Option.some.inj hending)) (matches_close rfl)

end Term.Alike

/-- Terms that stand for the same leaves when the connective of the level joins them. -/
def Grammar.Level.Alike (level : Level) (terms terms' : List Term) : Prop :=
  Matches (fun fs fs' => SameLeaves (level.node fs) (level.node fs'))
    (Term.leavesList terms) (Term.leavesList terms')

private theorem leaves_wrap (level : Level) (terms : List Term) :
    (level.wrap terms).leaves =
      match Term.leavesList terms with
      | .ok parts => .ok (level.node parts)
      | .error fault => .error fault := by
  cases level <;> exact Term.leaves.eq_def _

private theorem leavesList_append (front rest : List Term) :
    Term.leavesList (front ++ rest) =
      match Term.leavesList front with
      | .ok parts =>
          match Term.leavesList rest with
          | .ok more => .ok (parts ++ more)
          | .error fault => .error fault
      | .error fault => .error fault := by
  induction front with
  | nil =>
      rw [List.nil_append, Term.leavesList]
      cases Term.leavesList rest <;> rfl
  | cons term front ih =>
      rw [List.cons_append, Term.leavesList, Term.leavesList, ih]
      cases term.leaves with
      | error fault => rfl
      | ok part =>
          cases Term.leavesList front with
          | error fault => rfl
          | ok parts => cases Term.leavesList rest <;> rfl

private theorem sameLeaves_single (level : Level) (f : Formula Leaf) :
    SameLeaves (level.node [f]) f := by
  unfold SameLeaves
  rw [Formula.map_node]
  exact .single level _

private theorem alike_collapse_wrap (level : Level) (terms : List Term) :
    (Term.collapse level.wrap terms).Alike (level.wrap terms) := by
  have hrefl : ∀ f, SameLeaves f f := fun f => .of_eq rfl
  match terms with
  | [] | _ :: _ :: _ => exact Matches.refl hrefl _
  | [t] =>
      unfold Term.Alike
      rw [leaves_wrap, Term.leavesList, Term.leavesList, Term.collapse]
      cases t.leaves with
      | error fault => exact .error rfl
      | ok f => exact .ok (.symm _ _ (sameLeaves_single level f))

namespace Grammar.Level.Alike

variable {level : Level} {front front' rest rest' terms terms' terms'' : List Term}

theorem refl (level : Level) (terms : List Term) : level.Alike terms terms := by
  apply Matches.refl
  intro fs
  exact .of_eq rfl

theorem symm (h : level.Alike terms terms') : level.Alike terms' terms := by
  apply Matches.symm ?_ h
  intro fs fs' hfs
  exact hfs.symm _ _

theorem trans (h : level.Alike terms terms') (h' : level.Alike terms' terms'') :
    level.Alike terms terms'' := by
  apply Matches.trans ?_ h h'
  intro fs fs' fs'' hfs hfs'
  exact hfs.trans _ _ _ hfs'

theorem append (hfront : level.Alike front front') (hrest : level.Alike rest rest') :
    level.Alike (front ++ rest) (front' ++ rest') := by
  unfold Level.Alike
  rw [leavesList_append, leavesList_append]
  refine hfront.elim (fun fs fs' hfs => ?_) fun _ _ h => .error h
  refine hrest.elim (fun gs gs' hgs => ?_) fun _ _ h => .error h
  apply Matches.ok
  unfold SameLeaves at hfs hgs ⊢
  rw [Formula.map_node, Formula.map_node] at hfs hgs ⊢
  rw [List.map_append, List.map_append]
  exact hfs.append hgs

theorem single {t t' : Term} (h : t.Alike t') : level.Alike [t] [t'] := by
  unfold Level.Alike
  rw [Term.leavesList, Term.leavesList, Term.leavesList]
  exact h.elim (fun f f' hf => .ok (.node level [f] [f'] (.cons hf .nil))) fun _ _ h => .error h

theorem collapse (h : level.Alike terms terms') :
    (Term.collapse level.wrap terms).Alike (Term.collapse level.wrap terms') := by
  have hwrap : (level.wrap terms).Alike (level.wrap terms') := by
    unfold Term.Alike
    rw [leaves_wrap, leaves_wrap]
    exact h.elim (fun _ _ h => .ok h) fun _ _ h => .error h
  exact ((alike_collapse_wrap level terms).trans hwrap).trans (alike_collapse_wrap level terms').symm

theorem enclosed (level : Level) (terms : List Term) :
    level.Alike terms [Term.collapse level.wrap terms] := by
  have hwrap : level.Alike terms [level.wrap terms] := by
    unfold Level.Alike
    rw [Term.leavesList, leaves_wrap, Term.leavesList]
    cases Term.leavesList terms with
    | error fault => exact .error rfl
    | ok fs => exact .ok (.symm _ _ (sameLeaves_single level _))
  exact hwrap.trans (single (alike_collapse_wrap level terms).symm)

end Grammar.Level.Alike

/-- The filter a term stands for. -/
def Term.filter (operators : OperatorTable) (term : Term) : Except Fault Filter :=
  match term.expand with
  | .ok tree => Filter.normalizeFault operators tree
  | .error fault => .error fault

def RawComparison.unplaced (raw : RawComparison) : RawComparison :=
  ⟨raw.path, ⟨raw.token.value, .point 0⟩, raw.value, .point 0⟩

private theorem matches_finish (leaf : Leaf) :
    Matches (fun raw raw' => raw.unplaced = raw') leaf.finish leaf.unplaced.finish := by
  obtain ⟨path, _ | ending, span⟩ := leaf
  · exact .error rfl
  · exact .ok rfl

private theorem matches_resolve (operators : OperatorTable) (raw : RawComparison) :
    Matches Eq (operators.resolve raw) (operators.resolve raw.unplaced) := by
  simp only [OperatorTable.resolve, RawComparison.unplaced]
  cases operators.find? raw.token.value with
  | none => exact .error rfl
  | some operator =>
      simp only
      by_cases hrange : raw.value.isRange = true
      · by_cases htoken : raw.token.value = "=" ∨ raw.token.value = "!="
        · simp only [hrange, htoken, if_true]
          cases operator.forRange? with
          | none => exact .error rfl
          | some operator => exact .ok rfl
        · simp only [hrange, htoken, if_true, if_false]
          exact .error rfl
      · simp only [hrange]
        exact .ok rfl

private theorem Formula.matches_traverse {α α' β : Type} {r : β → β} {f : α → Except Fault β}
    {f' : α' → Except Fault β} {s : α → α'}
    (h : ∀ a, Matches (fun b b' => r b = b') (f a) (f' (s a))) (t : Formula α) :
    Matches (fun u u' => u.map r = u') (t.traverse f) ((t.map s).traverse f') := by
  unfold traverse
  apply matches_substitute
  · intro level us us' hus
    have hmap : us.map (map r) = us' := by
      induction hus with
      | nil => rfl
      | cons h _ ih => rw [List.map_cons, h, ih]
    rw [map_node, hmap]
  · intro a
    exact (h a).elim (fun b b' hb => .ok (by rw [map_leaf, hb])) fun _ _ h => .error h

namespace Filter

variable {operators : OperatorTable}

private theorem normalizeFault_unplaced (operators : OperatorTable) (tree : Formula RawComparison) :
    Matches Eq (normalizeFault operators tree)
      (normalizeFault operators (tree.map RawComparison.unplaced)) := by
  have hresolve : ∀ raw, Matches (fun c c' => id c = c') (operators.resolve raw)
      (operators.resolve raw.unplaced) :=
    matches_resolve operators
  unfold normalizeFault
  refine (Formula.matches_traverse hresolve tree).elim (fun u u' hu => ?_) fun _ _ h => .error h
  rw [Formula.map_id] at hu
  exact .ok (by rw [hu])

/-- The filter of leaves that have their endings. -/
private def ofLeaves (operators : OperatorTable) (f : Formula Leaf) : Except Fault Filter :=
  match f.traverse Leaf.finish with
  | .ok tree => normalizeFault operators tree
  | .error fault => .error fault

private theorem ofLeaves_unplaced (f : Formula Leaf) :
    Matches Eq (ofLeaves operators f) (ofLeaves operators (f.map Leaf.unplaced)) := by
  unfold ofLeaves
  refine (Formula.matches_traverse matches_finish f).elim (fun tree tree' htree => ?_)
    fun _ _ h => .error h
  simp only [← htree]
  exact normalizeFault_unplaced operators tree

private theorem ofLeaves_equivalent {f f' : Formula Leaf} (h : f.Equivalent f') :
    ofLeaves operators f = ofLeaves operators f' := by
  have hrefusal := h.refusal_traverse Leaf.finish
  unfold ofLeaves
  cases hf : f.traverse Leaf.finish with
  | error fault =>
      rw [hf] at hrefusal
      rw [Formula.refusal_eq_some.mp hrefusal.symm]
  | ok tree =>
      rw [hf] at hrefusal
      obtain ⟨tree', hf'⟩ := Formula.refusal_eq_none.mp hrefusal.symm
      rw [hf']
      exact normalizeFault_congr (h.traverse hf hf')

end Filter

private theorem Term.filter_eq (operators : OperatorTable) (t : Term) :
    t.filter operators =
      match t.leaves with
      | .ok f => Filter.ofLeaves operators f
      | .error fault => .error fault := by
  unfold Term.filter Term.expand
  cases t.leaves <;> rfl

/-- Terms that are alike stand for the same filter, or have faults of one cause. -/
theorem Term.Alike.filter {t t' : Term} (h : t.Alike t') (operators : OperatorTable) :
    Matches Eq (t.filter operators) (t'.filter operators) := by
  rw [Term.filter_eq, Term.filter_eq]
  refine Matches.elim h (fun f f' hf => ?_) fun _ _ h => .error h
  have hplaces : Matches Eq (Filter.ofLeaves operators f) (Filter.ofLeaves operators _) :=
    Filter.ofLeaves_unplaced f
  have hplaces' : Matches Eq (Filter.ofLeaves operators f') (Filter.ofLeaves operators _) :=
    Filter.ofLeaves_unplaced f'
  rw [Filter.ofLeaves_equivalent hf] at hplaces
  apply hplaces.trans ?_ (hplaces'.symm ?_)
  · intro a b c hab hbc
    exact hab.trans hbc
  · intro a b hab
    exact hab.symm

end RequestQuery
