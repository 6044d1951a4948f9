import RequestQuery.Proofs.Filter.Completeness

/-!
# Only derivations are read

Whatever the parser of filters reads has a derivation, and the term it builds is the term of that
derivation.
-/

namespace RequestQuery

namespace Grammar

open RequestQuery.Parser

variable {operators : OperatorTable}

/-- What is read at a cursor is the text of a chain, and the outcome is its term. -/
structure ChainRead (operators : OperatorTable) (level : Level) (cursor : Cursor)
    (terms : List Term) (next : Cursor) (chain : Chain level) : Prop where
  well : chain.WellFormed operators
  number : chain.Representable
  passes : cursor.Passes chain.chars next
  terms : terms = chain.terms cursor.offset

def ReadsChains (operators : OperatorTable) (level : Level) (p : Parser Term) : Prop :=
  ∀ (cursor next : Cursor) (t : Term), p cursor = .done t next →
    ∃ terms, t = Term.collapse level.wrap terms ∧
      ∃ chain, ChainRead operators level cursor terms next chain

def ReadsParts (operators : OperatorTable) (level : Level) (p : Parser Term) : Prop :=
  ∀ (cursor next : Cursor) (t : Term), p cursor = .done t next →
    ∃ part : Part level, part.WellFormed operators ∧ part.Representable ∧
      cursor.Passes part.chars next ∧ t = part.term cursor.offset

theorem separators_eq_done {cursor next : Cursor} {a : Unit}
    (h : separators cursor = .done a next) :
    ∃ taken, cursor.Passes taken next ∧ taken.all isSeparator = true := by
  obtain ⟨taken, mid, htaken, hpure⟩ := bind_eq_done.mp h
  obtain ⟨-, rfl⟩ := pure_eq_done.mp hpure
  exact ⟨taken, run_eq_done htaken⟩

theorem connective_eq_done {letters : List Char} {cursor next : Cursor} {a : Unit}
    (h : connective letters cursor = .done a next) :
    ∃ before after, IsRun isSeparator before ∧ IsRun isSeparator after ∧
      cursor.Passes (before ++ (letters ++ after)) next := by
  obtain ⟨before, mid, hbefore, h'⟩ := bind_eq_done.mp h
  obtain ⟨_, mid', hletters, h''⟩ := bind_eq_done.mp h'
  obtain ⟨after, last, hafter, hpure⟩ := bind_eq_done.mp h''
  obtain ⟨-, rfl⟩ := pure_eq_done.mp hpure
  obtain ⟨hbeforePasses, hbeforeRun⟩ := run1_eq_done hbefore
  obtain ⟨hafterPasses, hafterRun⟩ := run1_eq_done hafter
  exact ⟨before, after, hbeforeRun, hafterRun,
    hbeforePasses.trans ((word_eq_done hletters).trans hafterPasses)⟩

private theorem bracketed_eq_done {opener closer : Char} {label : String} {inner : Parser Term}
    (hinner : ReadsChains operators .any inner) {cursor next : Cursor} {t : Term}
    (h : bracketed opener closer label inner cursor = .done t next) :
    ∃ (before : List Char) (chain : Chain .any) (after : List Char),
      before.all isSeparator = true ∧ chain.WellFormed operators ∧ chain.Representable ∧
      after.all isSeparator = true ∧
      cursor.Passes (opener :: (before ++ (chain.chars ++ (after ++ [closer])))) next ∧
      t = chain.term (cursor.offset + byteLength (opener :: before)) := by
  obtain ⟨_, c₁, hopener, h₁⟩ := bind_eq_done.mp h
  obtain ⟨_, c₂, hbefore, h₂⟩ := bind_eq_done.mp (commit_eq_done.mp h₁)
  obtain ⟨u, c₃, hterm, h₃⟩ := bind_eq_done.mp h₂
  obtain ⟨_, c₄, hafter, h₄⟩ := bind_eq_done.mp h₃
  obtain ⟨_, c₅, hcloser, h₅⟩ := bind_eq_done.mp h₄
  obtain ⟨rfl, rfl⟩ := pure_eq_done.mp h₅
  obtain ⟨before, hbeforePasses, hbeforeAll⟩ := separators_eq_done hbefore
  obtain ⟨terms, rfl, chain, hchain⟩ := hinner _ _ _ hterm
  obtain ⟨after, hafterPasses, hafterAll⟩ := separators_eq_done hafter
  have hfront := (char_eq_done hopener).trans hbeforePasses
  refine ⟨before, chain, after, hbeforeAll, hchain.well, hchain.number, hafterAll, ?_, ?_⟩
  · exact hfront.trans (hchain.passes.trans
      (hafterPasses.trans (char_eq_done (labelled_eq_done.mp hcloser))))
  · rw [Chain.term, hchain.terms, hfront.offset]
    rfl

private theorem readsChains_joined {level : Level} {part : Parser Term}
    (hpart : ReadsParts operators level part) :
    ReadsChains operators level (joined level.letters level.wrap part) := by
  -- Behind a part that is read, the repetitions add one link to the chain after another.
  have hmore : ∀ {mid next : Cursor} {ts : List Term},
      Repeated (do connective level.letters; commit part) mid ts next →
      ∀ (cursor : Cursor) (first : Part level), first.WellFormed operators →
        first.Representable → cursor.Passes first.chars mid →
        ∃ chain, ChainRead operators level cursor (first.term cursor.offset :: ts) next chain := by
    intro mid next ts h
    induction h with
    | stop mid =>
        intro cursor first hwell hnumber hpasses
        exact ⟨.last first, hwell, hnumber, hpasses, rfl⟩
    | step hstep _ ih =>
        intro cursor first hwell hnumber hpasses
        obtain ⟨_, behind, hconnective, hsecond⟩ := bind_eq_done.mp hstep
        obtain ⟨before, after, hbefore, hafter, hjoint⟩ := connective_eq_done hconnective
        obtain ⟨second, hwell', hnumber', hpasses', rfl⟩ := hpart _ _ _ (commit_eq_done.mp hsecond)
        obtain ⟨chain, hchain⟩ := ih behind second hwell' hnumber' hpasses'
        have hfront := hpasses.trans hjoint
        refine ⟨.cons first before after chain, ⟨hwell, hbefore, hafter, hchain.well⟩,
          ⟨hnumber, hchain.number⟩, ?_, ?_⟩
        · simpa [Chain.chars] using hfront.trans hchain.passes
        · rw [Chain.terms, hchain.terms, hfront.offset]
  intro cursor next t h
  obtain ⟨t₁, mid, hfirst, h₁⟩ := bind_eq_done.mp h
  obtain ⟨ts, last, hrest, hpure⟩ := bind_eq_done.mp h₁
  obtain ⟨rfl, rfl⟩ := pure_eq_done.mp hpure
  obtain ⟨first, hwell, hnumber, hpasses, rfl⟩ := hpart _ _ _ hfirst
  exact ⟨_, rfl, hmore (many_eq_done hrest) cursor first hwell hnumber hpasses⟩

theorem name_eq_done {cursor next : Cursor} {a : Spanned String}
    (h : name cursor = .done a next) :
    ∃ text, IsRun isNameChar text ∧ cursor.Passes text next ∧
      a = ⟨String.ofList text, ⟨cursor.offset, cursor.offset + byteLength text⟩⟩ := by
  obtain ⟨htext, hspan⟩ := spanned_eq_done (labelled_eq_done.mp h)
  obtain ⟨text, hpasses, hne, hall, hvalue⟩ := textOf_eq_done htext
  refine ⟨text, ⟨hne, hall⟩, hpasses, ?_⟩
  obtain ⟨value, span⟩ := a
  simp only at hvalue hspan
  rw [hvalue, hspan, hpasses.offset]

private theorem repeated_pathStep {inner : Parser Term} (hinner : ReadsChains operators .any inner)
    {cursor next : Cursor} {list : List Step} (h : Repeated (pathStep inner) cursor list next) :
    ∃ steps : Steps, steps.WellFormed operators ∧ steps.Representable ∧
      cursor.Passes steps.chars next ∧ list = steps.steps cursor.offset := by
  induction h with
  | stop cursor => exact ⟨.done, trivial, trivial, .refl _, rfl⟩
  | step hstep _ ih =>
      obtain ⟨steps, hwell, hnumber, hpasses, rfl⟩ := ih
      rcases either_eq_done hstep with hsegment | hgroup
      · obtain ⟨_, behind, hpoint, h₁⟩ := bind_eq_done.mp hsegment
        obtain ⟨segment, last, hname, hpure⟩ := bind_eq_done.mp h₁
        obtain ⟨rfl, rfl⟩ := pure_eq_done.mp hpure
        obtain ⟨text, htext, htextPasses, rfl⟩ := name_eq_done (commit_eq_done.mp hname)
        have hpointPasses := char_eq_done hpoint
        have hfront := hpointPasses.trans htextPasses
        refine ⟨.segment text steps, ⟨htext, hwell⟩, hnumber, hfront.trans hpasses, ?_⟩
        rw [Steps.steps, hpointPasses.offset, hfront.offset]
        rfl
      · obtain ⟨t, behind, hbracketed, hpure⟩ := bind_eq_done.mp hgroup
        obtain ⟨rfl, rfl⟩ := pure_eq_done.mp hpure
        obtain ⟨before, chain, after, hbefore, hchain, hchainNumber, hafter, hfront, rfl⟩ :=
          bracketed_eq_done hinner hbracketed
        refine ⟨.group before chain after steps, ⟨hbefore, hchain, hafter, hwell⟩,
          ⟨hchainNumber, hnumber⟩, ?_, ?_⟩
        · simpa [Steps.chars] using hfront.trans hpasses
        · rw [Steps.steps, hfront.offset]
          rfl

theorem ending_eq_done {cursor next : Cursor} {a : Ending}
    (h : ending operators cursor = .done a next) :
    ∃ e : EndingSpelling, e.WellFormed operators ∧ e.value.Representable ∧
      cursor.Passes e.chars next ∧ a = e.ending cursor.offset := by
  obtain ⟨token, mid, htoken, h₁⟩ := bind_eq_done.mp h
  obtain ⟨v, last, hvalue, hpure⟩ := bind_eq_done.mp h₁
  obtain ⟨rfl, rfl⟩ := pure_eq_done.mp hpure
  obtain ⟨spelling, hwell, hnumber, hvaluePasses, rfl⟩ := value_eq_done (commit_eq_done.mp hvalue)
  obtain ⟨hoperator, hspan⟩ := spanned_eq_done htoken
  unfold operatorToken at hoperator
  split at hoperator
  next text behind htext =>
    split at hoperator <;> cases hoperator
    next hbound =>
      obtain ⟨taken, hpasses, hne, hall, htaken⟩ := textOf_eq_done htext
      refine ⟨⟨taken, spelling⟩, ⟨⟨hne, hall⟩, htaken ▸ hbound, hwell⟩, hnumber,
        hpasses.trans hvaluePasses, ?_⟩
      obtain ⟨value, span⟩ := token
      simp only at htaken hspan
      rw [EndingSpelling.ending, htaken, hspan, hpasses.offset]
  next => cases hoperator
  next => cases hoperator

private theorem readsParts_term {inner : Parser Term} (hinner : ReadsChains operators .any inner) :
    ReadsParts operators .all (term operators inner) := by
  intro cursor next t h
  rcases either_eq_done h with hbracketed | hpath
  · obtain ⟨before, chain, after, hbefore, hchain, hnumber, hafter, hpasses, rfl⟩ :=
      bracketed_eq_done hinner hbracketed
    exact ⟨.parentheses before chain after, ⟨hbefore, hchain, hafter⟩, hnumber, hpasses, rfl⟩
  · obtain ⟨parts, mid, hparts, hpure⟩ := bind_eq_done.mp hpath
    obtain ⟨rfl, rfl⟩ := pure_eq_done.mp hpure
    obtain ⟨hparts', hspan⟩ := spanned_eq_done hparts
    obtain ⟨head, c₁, hhead, h₁⟩ := bind_eq_done.mp hparts'
    obtain ⟨list, c₂, hlist, h₂⟩ := bind_eq_done.mp h₁
    obtain ⟨close, c₃, hclose, h₃⟩ := bind_eq_done.mp h₂
    obtain ⟨hvalue, rfl⟩ := pure_eq_done.mp h₃
    obtain ⟨text, htext, htextPasses, rfl⟩ := name_eq_done hhead
    obtain ⟨steps, hsteps, hstepsNumber, hstepsPasses, rfl⟩ :=
      repeated_pathStep hinner (many_eq_done hlist)
    have hfront := htextPasses.trans hstepsPasses
    have hending : ∃ e : Option EndingSpelling, (∀ e' ∈ e, e'.WellFormed operators) ∧
        (∀ e' ∈ e, e'.value.Representable) ∧ c₂.Passes (e.elim [] EndingSpelling.chars) c₃ ∧
        close = e.map fun e' => e'.ending c₂.offset := by
      rcases optional_eq_done hclose with ⟨a, rfl, ha⟩ | ⟨rfl, rfl⟩
      · obtain ⟨e, hwell, hnumber, hpasses, rfl⟩ := ending_eq_done ha
        exact ⟨some e, by simpa using hwell, by simpa using hnumber, hpasses, rfl⟩
      · exact ⟨none, by simp, by simp, .refl _, rfl⟩
    obtain ⟨e, hwell, hnumber, hpasses, rfl⟩ := hending
    have hall := htextPasses.trans (hstepsPasses.trans hpasses)
    refine ⟨.path text steps e, ⟨htext, hsteps, hwell⟩, ⟨hstepsNumber, hnumber⟩, hall, ?_⟩
    obtain ⟨value, span⟩ := parts
    simp only at hvalue hspan
    rw [← hvalue, hspan, Part.term, ← htextPasses.offset, ← hfront.offset, ← hall.offset]

private theorem readsChains_expression (fuel : Nat) :
    ReadsChains operators .any (expression operators fuel) := by
  induction fuel with
  | zero => intro cursor next t h; cases h
  | succ fuel ih =>
      have hall : ReadsChains operators .all
          (joined Level.all.letters Level.all.wrap (term operators (expression operators fuel))) :=
        readsChains_joined (readsParts_term ih)
      have hany : ReadsParts operators .any
          (joined Level.all.letters Level.all.wrap (term operators (expression operators fuel))) := by
        intro cursor next t h
        obtain ⟨terms, rfl, chain, hchain⟩ := hall _ _ _ h
        exact ⟨.conjunction chain, hchain.well, hchain.number, hchain.passes, by
          rw [hchain.terms]; rfl⟩
      exact readsChains_joined hany

/-- A filter text that is read has a derivation, and its term is what was read. -/
theorem exists_derivation {source : String} {t : Term} (h : Term.parse operators source = .ok t) :
    ∃ d : Derivation, d.WellFormed operators ∧ d.Representable ∧ d.chars = source.toList ∧
      d.term = t := by
  have hread : ∃ next, filterText operators (source.length + 1) (.start source) = .done t next := by
    unfold Term.parse Parser.parse at h
    split at h <;> cases h
    next next hnext => exact ⟨next, hnext⟩
  obtain ⟨next, hnext⟩ := hread
  obtain ⟨_, c₁, hbefore, h₁⟩ := bind_eq_done.mp hnext
  obtain ⟨u, c₂, hterm, h₂⟩ := bind_eq_done.mp h₁
  obtain ⟨_, c₃, hafter, h₃⟩ := bind_eq_done.mp h₂
  obtain ⟨_, c₄, hend, h₄⟩ := bind_eq_done.mp h₃
  obtain ⟨rfl, rfl⟩ := pure_eq_done.mp h₄
  obtain ⟨before, hbeforePasses, hbeforeAll⟩ := separators_eq_done hbefore
  obtain ⟨terms, rfl, chain, hchain⟩ := readsChains_expression _ _ _ _ hterm
  obtain ⟨after, hafterPasses, hafterAll⟩ := separators_eq_done hafter
  have hrest := (atEnd_eq_done (labelled_eq_done.mp hend)).1
  refine ⟨⟨before, chain, after⟩, ⟨hbeforeAll, hchain.well, hafterAll⟩, hchain.number, ?_, ?_⟩
  · have hall := (hbeforePasses.trans (hchain.passes.trans hafterPasses)).rest
    rw [hrest, List.append_nil] at hall
    exact hall.symm
  · rw [hchain.terms, hbeforePasses.offset]
    simp only [Derivation.term, Chain.term, Cursor.start, Nat.zero_add]

end Grammar

end RequestQuery
