import RequestQuery.Proofs.Filter.Scalar
import RequestQuery.Reading.Nesting

/-!
# Every derivation is read

If nothing that follows could belong to it, the text of a derivation is read as its term. No point of
no return stands in the way: behind it, the grammar has no other way to go on either.
-/

namespace RequestQuery

namespace Grammar

open RequestQuery.Parser

/-- Two texts with separators in front, or other runs of a class, agree in both parts. -/
theorem run_unique {p : Char → Bool} {run run' rest rest' : List Char} (hrun : run.all p = true)
    (hrun' : run'.all p = true) (hrest : ∀ c ∈ rest.head?, p c = false)
    (hrest' : ∀ c ∈ rest'.head?, p c = false) (h : run ++ rest = run' ++ rest') :
    run = run' ∧ rest = rest' := by
  have htake := takeWhile_run hrun hrest
  rw [h, (takeWhile_run hrun' hrest').1, (takeWhile_run hrun' hrest').2] at htake
  exact ⟨htake.1.symm, htake.2.symm⟩

/-- A connective stands here, separators around it. -/
def Joins (letters rest : List Char) : Prop :=
  ∃ before after tail, rest = before ++ (letters ++ (after ++ tail)) ∧
    IsRun isSeparator before ∧ IsRun isSeparator after

/-- What follows a part of a level cannot belong to the part. -/
def Level.PartFollows : Level → List Char → Prop
  | .any, rest => Ends rest ∧ ¬Joins Level.all.letters rest
  | .all, rest => Ends rest

/-- What follows a chain of a level cannot belong to the chain. -/
def Level.Follows (level : Level) (rest : List Char) : Prop :=
  level.PartFollows rest ∧ ¬Joins level.letters rest

theorem letters_head (level : Level) (rest : List Char) :
    ∀ c ∈ (level.letters ++ rest).head?, isSeparator c = false := by
  cases level <;> (intro c hc; cases hc; decide)

private theorem isSeparator_mem_endChars {c : Char} (h : isSeparator c = true) : c ∈ endChars := by
  simp only [isSeparator, Bool.or_eq_true, beq_iff_eq] at h
  rcases h with ((h | h) | h) | h <;> subst h <;> decide

private theorem joins_front {before rest : List Char} (hbefore : before.all isSeparator = true)
    (hrest : ∀ c ∈ rest.head?, isSeparator c = false) {level : Level}
    (h : Joins level.letters (before ++ rest)) : level.letters <+: rest := by
  obtain ⟨before', after, tail, heq, hbefore', -⟩ := h
  obtain ⟨-, hrest'⟩ := run_unique hbefore hbefore'.2 hrest (letters_head level _) heq
  rw [hrest']
  exact List.prefix_append _ _

theorem partFollows_letters {before : List Char} (hbefore : IsRun isSeparator before)
    (level : Level) (rest : List Char) :
    level.PartFollows (before ++ (level.letters ++ rest)) := by
  have hends : Ends (before ++ (level.letters ++ rest)) := fun c hc =>
    isSeparator_mem_endChars (head_isRun hbefore c hc)
  cases level with
  | all => exact hends
  | any =>
      refine ⟨hends, fun hjoins => ?_⟩
      have hfront := joins_front hbefore.2 (letters_head .any rest) hjoins
      obtain ⟨tail, htail⟩ := hfront
      cases htail

theorem follows_end {after rest : List Char} (hafter : after.all isSeparator = true)
    (hrest : ∀ c ∈ rest.head?, Nesting.isCloser c = true) : Level.any.Follows (after ++ rest) := by
  have hcloser : ∀ c ∈ rest.head?, c = ')' ∨ c = ']' := by
    intro c hc
    simpa [Nesting.isCloser] using hrest c hc
  have hseparator : ∀ c ∈ rest.head?, isSeparator c = false := by
    intro c hc
    rcases hcloser c hc with rfl | rfl <;> decide
  have hjoins : ∀ level : Level, ¬Joins level.letters (after ++ rest) := by
    intro level hj
    obtain ⟨tail, rfl⟩ := joins_front hafter hseparator hj
    cases level <;> exact absurd (hcloser _ rfl) (by decide)
  have hends : Ends (after ++ rest) := by
    cases after with
    | nil =>
        intro c hc
        rcases hcloser c hc with rfl | rfl <;> decide
    | cons d after =>
        intro c hc
        cases hc
        simp only [List.all_cons, Bool.and_eq_true] at hafter
        exact isSeparator_mem_endChars hafter.1
  exact ⟨⟨hends, hjoins .all⟩, hjoins .any⟩

theorem reads_connective {level : Level} {before after rest : List Char}
    (hbefore : IsRun isSeparator before) (hafter : IsRun isSeparator after)
    (hrest : ∀ c ∈ rest.head?, isSeparator c = false) (offset : Nat) :
    Reads (connective level.letters) offset (before ++ (level.letters ++ after)) rest () := by
  have hletters : ∀ c ∈ (level.letters ++ after ++ rest).head?, isSeparator c = false := by
    rw [List.append_assoc]
    exact letters_head level _
  exact (reads_run1 hbefore.1 hbefore.2 hletters offset).bind
    ((reads_word level.letters _ _).bind
      ((reads_run1 hafter.1 hafter.2 hrest _).bind_nil (reads_pure ..)))

theorem refuses_connective {letters rest : List Char} (h : ¬Joins letters rest) (offset : Nat) :
    Refuses (connective letters) offset rest := by
  have hsplit := List.takeWhile_append_dropWhile (p := isSeparator) (l := rest)
  have hall : (rest.takeWhile isSeparator).all isSeparator = true := List.all_takeWhile
  have hhead : ∀ c ∈ (rest.dropWhile isSeparator).head?, isSeparator c = false := by
    intro c hc
    have hnot := List.head?_dropWhile_not isSeparator rest
    rw [hc] at hnot
    simpa using hnot
  by_cases hne : rest.takeWhile isSeparator = []
  · rw [hne, List.nil_append] at hsplit
    rw [hsplit] at hhead
    exact (refuses_run1 hhead offset).bind _
  rw [← hsplit]
  refine (reads_run1 hne hall hhead offset).bind_refuses ?_
  by_cases hfront : letters <+: rest.dropWhile isSeparator
  · obtain ⟨tail, htail⟩ := hfront
    rw [← htail]
    refine (reads_word letters _ tail).bind_refuses ((refuses_run1 ?_ _).bind _)
    intro c hc
    by_contra hseparator
    obtain ⟨tail', rfl⟩ := List.head?_eq_some_iff.mp hc
    refine h ⟨rest.takeWhile isSeparator, [c], tail', ?_, ⟨hne, hall⟩, ⟨by simp, ?_⟩⟩
    · rw [List.singleton_append, htail, hsplit]
    · simpa using hseparator
  · exact (refuses_word hfront _).bind _

theorem reads_bracketed {opener closer : Char} {label : String} {inner : Parser Term}
    {before text after rest : List Char} {t : Term} {offset : Nat}
    (hbefore : before.all isSeparator = true) (hafter : after.all isSeparator = true)
    (htext : ∀ c ∈ (text ++ (after ++ closer :: rest)).head?, isSeparator c = false)
    (hcloser : isSeparator closer = false)
    (h : Reads inner (offset + byteLength (opener :: before)) text (after ++ closer :: rest) t) :
    Reads (bracketed opener closer label inner) offset
      (opener :: (before ++ (text ++ (after ++ [closer])))) rest t := by
  have hend : ∀ c ∈ (closer :: rest).head?, isSeparator c = false := by
    intro c hc
    cases hc
    exact hcloser
  have hclose : Reads (do separators; labelled label (char closer); pure t)
      (offset + byteLength (opener :: before) + byteLength text) (after ++ [closer]) rest t :=
    (Reads.bind_pure (reads_run hafter hend _)).bind
      (((reads_char closer _ rest).labelled label).bind_nil (reads_pure ..))
  have hinner : Reads (do separators; let t ← inner; separators; labelled label (char closer); pure t)
      (offset + byteLength [opener]) (before ++ (text ++ (after ++ [closer]))) rest t := by
    refine Reads.bind (Reads.bind_pure (reads_run hbefore ?_ _)) (Reads.bind (a := t) ?_ ?_)
    · simpa using htext
    · simpa [Nat.add_assoc] using h
    · simpa [Nat.add_assoc] using hclose
  exact (reads_char opener offset _).bind hinner.commit

def isStartChar (c : Char) : Bool := isNameChar c || c == '('

mutual
theorem Chain.head {operators : OperatorTable} {level : Level} : ∀ (chain : Chain level),
    chain.WellFormed operators → ∃ c cs, chain.chars = c :: cs ∧ isStartChar c = true
  | .last part, h => part.head h
  | .cons part _ _ _, h => by
      obtain ⟨c, cs, hcs, hc⟩ := part.head h.1
      exact ⟨c, _, by rw [Chain.chars, hcs]; rfl, hc⟩

theorem Part.head {operators : OperatorTable} {level : Level} : ∀ (part : Part level),
    part.WellFormed operators → ∃ c cs, part.chars = c :: cs ∧ isStartChar c = true
  | .conjunction chain, h => chain.head h
  | .parentheses _ _ _, _ => ⟨'(', _, rfl, rfl⟩
  | .path head steps ending, h => by
      obtain ⟨c, cs, rfl⟩ := List.exists_cons_of_ne_nil h.1.1
      have hc := List.all_eq_true.mp h.1.2 c (List.mem_cons_self ..)
      exact ⟨c, _, rfl, by rw [isStartChar, hc, Bool.true_or]⟩
end

private theorem isSeparator_of_isStartChar {c : Char} (h : isStartChar c = true) :
    isSeparator c = false := by
  by_contra hseparator
  have hmem := isSeparator_mem_endChars (by simpa using hseparator)
  have hall : endChars.all (fun d => !isStartChar d) = true := by decide
  have hnot := List.all_eq_true.mp hall c hmem
  rw [h] at hnot
  cases hnot

theorem Chain.head_not_separator {operators : OperatorTable} {level : Level} {chain : Chain level}
    (h : chain.WellFormed operators) (rest : List Char) :
    ∀ c ∈ (chain.chars ++ rest).head?, isSeparator c = false := by
  obtain ⟨c, cs, hcs, hc⟩ := chain.head h
  intro d hd
  rw [hcs] at hd
  cases hd
  exact isSeparator_of_isStartChar hc

/-- What follows the steps of a path is neither a step nor a longer name. -/
def ClosesPath (rest : List Char) : Prop :=
  ∀ c ∈ rest.head?, (isNameChar c || c == '.' || c == '[') = false

theorem closesPath_ending {operators : OperatorTable} {ending : Option EndingSpelling}
    (h : ∀ e ∈ ending, e.WellFormed operators) {rest : List Char} (hrest : Ends rest) :
    ClosesPath (ending.elim [] EndingSpelling.chars ++ rest) := by
  cases ending with
  | none => exact hrest.head_of_all (by decide)
  | some e =>
      intro c hc
      have hmem : c ∈ (e.token ++ (e.value.chars ++ rest)).head? := by
        simpa [EndingSpelling.chars] using hc
      have hoperator : isOperatorChar c = true := head_isRun (h e rfl).1 c hmem
      have hall : operatorChars.all (fun d => !(isNameChar d || d == '.' || d == '[')) = true := by
        decide
      simpa using List.all_eq_true.mp hall c (List.contains_iff_mem.mp hoperator)

theorem steps_head (steps : Steps) {rest : List Char} (hrest : ClosesPath rest) :
    ∀ c ∈ (steps.chars ++ rest).head?, isNameChar c = false := by
  cases steps with
  | done =>
      intro c hc
      have h := hrest c hc
      simp only [Bool.or_eq_false_iff] at h
      exact h.1.1
  | segment name rest' => intro c hc; cases hc; decide
  | group before inner after rest' => intro c hc; cases hc; decide

theorem reads_name {text rest : List Char} (htext : IsRun isNameChar text)
    (hrest : ∀ c ∈ rest.head?, isNameChar c = false) (offset : Nat) :
    Reads name offset text rest ⟨String.ofList text, ⟨offset, offset + byteLength text⟩⟩ :=
  (reads_textOf htext.1 htext.2 hrest offset).spanned.labelled _

theorem head_value_not_operator {v : ValueSpelling} (hv : v.WellFormed) (rest : List Char) :
    ∀ c ∈ (v.chars ++ rest).head?, isOperatorChar c = false := by
  intro c hc
  have hclass := head_value hv rest c hc
  by_contra hoperator
  have hall : operatorChars.all (fun d => !(isNameChar d || d == '"' || d == '-')) = true := by
    decide
  have hnot := List.all_eq_true.mp hall c
    (List.contains_iff_mem.mp ((Bool.not_eq_false _).mp hoperator))
  rw [hclass] at hnot
  cases hnot

/-- A token is the longest run of operator characters, for no value starts with one. -/
theorem reads_operatorToken {operators : OperatorTable} {e : EndingSpelling}
    (h : e.WellFormed operators) (rest : List Char) (offset : Nat) :
    Reads (operatorToken operators) offset e.token (e.value.chars ++ rest)
      (String.ofList e.token) := by
  have hvalue := head_value_not_operator h.2.2 rest
  have hrun := reads_textOf h.1.1 h.1.2 hvalue offset
  unfold Reads at hrun
  simp only [Reads, operatorToken, hrun, h.2.1, if_true]

theorem reads_ending {operators : OperatorTable} {e : EndingSpelling}
    (h : e.WellFormed operators) (hnumber : e.value.Representable) {rest : List Char}
    (hrest : Ends rest) (offset : Nat) :
    Reads (ending operators) offset e.chars rest (e.ending offset) :=
  (reads_operatorToken h rest offset).spanned.bind
    ((reads_value h.2.2 hnumber hrest _).commit.bind_nil (reads_pure ..))

theorem refuses_ending {operators : OperatorTable} {rest : List Char} (hrest : Ends rest)
    (offset : Nat) : Refuses (ending operators) offset rest := by
  obtain ⟨stop, hstop⟩ := refuses_run1 (hrest.head_of_all (p := isOperatorChar) (by decide)) offset
  have htext : textOf isOperatorChar ⟨offset, rest⟩ = .refused stop := by
    change Parser.bind _ _ _ = _
    rw [Parser.bind, hstop]
  have htoken : Refuses (operatorToken operators) offset rest :=
    ⟨stop, by simp only [operatorToken, htext]⟩
  obtain ⟨stop', hstop'⟩ := htoken
  exact Refuses.bind ⟨stop', by simp only [spanned, hstop']⟩ _

theorem reads_segment {name rest : List Char} (hname : IsRun isNameChar name)
    (hrest : ∀ c ∈ rest.head?, isNameChar c = false) (inner : Parser Term) (offset : Nat) :
    Reads (pathStep inner) offset ('.' :: name) rest (.segment ⟨String.ofList name,
      ⟨offset + byteLength ['.'], offset + byteLength ['.'] + byteLength name⟩⟩) := by
  have hread := reads_name hname hrest (offset + byteLength ['.'])
  apply Reads.either
  exact (reads_char '.' offset _).bind (hread.commit.bind_nil (reads_pure ..))

theorem reads_group {inner : Parser Term} {before text after rest : List Char} {t : Term}
    {offset : Nat} (hbefore : before.all isSeparator = true) (hafter : after.all isSeparator = true)
    (htext : ∀ c ∈ (text ++ (after ++ ']' :: rest)).head?, isSeparator c = false)
    (h : Reads inner (offset + byteLength ('[' :: before)) text (after ++ ']' :: rest) t) :
    Reads (pathStep inner) offset ('[' :: (before ++ (text ++ (after ++ [']'])))) rest (.group t) := by
  have hgroup : Reads (bracketed '[' ']' "`]`" inner) offset
      ('[' :: (before ++ (text ++ (after ++ [']'])))) rest t :=
    reads_bracketed hbefore hafter htext (by decide) h
  refine Refuses.either ?_ (hgroup.bind_nil (reads_pure ..))
  exact (refuses_char (by simp) offset).bind _

def Level.part (operators : OperatorTable) (inner : Parser Term) : Level → Parser Term
  | .any => joined Level.all.letters Level.all.wrap (term operators inner)
  | .all => term operators inner

/-- The parts of a chain as `joined` meets them: the first, and the others behind connectives. -/
structure ReadsChain (part : Parser Term) (letters : List Char) (offset : Nat)
    (text rest : List Char) (terms : List Term) : Prop where
  split : ∃ first more t ts, text = first ++ more ∧ terms = t :: ts ∧
    Reads part offset first (more ++ rest) t ∧
    Repeats (do connective letters; commit part) (offset + byteLength first) more rest ts

theorem ReadsChain.reads {part : Parser Term} {level : Level} {offset : Nat}
    {text rest : List Char} {terms : List Term}
    (h : ReadsChain part level.letters offset text rest terms) :
    Reads (joined level.letters level.wrap part) offset text rest
      (Term.collapse level.wrap terms) := by
  obtain ⟨first, more, t, ts, rfl, rfl, hfirst, hmore⟩ := h.split
  exact hfirst.bind (hmore.reads.bind_nil (reads_pure ..))

section Derivations

variable {operators : OperatorTable}

mutual
theorem Chain.readsChain {level : Level} : ∀ (chain : Chain level),
    chain.WellFormed operators → chain.Representable → ∀ fuel, chain.depth ≤ fuel →
    ∀ rest, level.Follows rest → ∀ offset,
      ReadsChain (level.part operators (expression operators fuel)) level.letters offset
        chain.chars rest (chain.terms offset)
  | .last part, hwell, hnumber, fuel, hdepth, rest, hrest, offset => by
      have hpart := part.reads hwell hnumber fuel hdepth rest hrest.1 offset
      refine ⟨part.chars, [], part.term offset, [], by simp [Chain.chars], rfl, hpart, ?_⟩
      exact .stop ((refuses_connective hrest.2 _).bind _)
  | .cons part before after more, hwell, hnumber, fuel, hdepth, rest, hrest, offset => by
      simp only [Chain.depth, Nat.max_le] at hdepth
      obtain ⟨hpartWell, hbefore, hafter, hmoreWell⟩ := hwell
      have hpart := part.reads hpartWell hnumber.1 fuel hdepth.1
        (before ++ (level.letters ++ (after ++ (more.chars ++ rest))))
        (partFollows_letters hbefore level _) offset
      obtain ⟨first, tail, t, ts, hsplit, hterms, hfirst, htail⟩ :=
        (more.readsChain hmoreWell hnumber.2 fuel hdepth.2 rest hrest
          (offset + byteLength (part.chars ++ (before ++ (level.letters ++ after))))).split
      have hmoreHead := Chain.head_not_separator hmoreWell rest
      rw [hsplit, List.append_assoc] at hmoreHead
      have hconnective : Reads (connective level.letters) (offset + byteLength part.chars)
          (before ++ (level.letters ++ after)) (first ++ (tail ++ rest)) () :=
        reads_connective hbefore hafter hmoreHead _
      refine ⟨part.chars, before ++ (level.letters ++ after) ++ first ++ tail, part.term offset,
        t :: ts, ?_, ?_, ?_, ?_⟩
      · rw [Chain.chars, hsplit]
        simp
      · rw [Chain.terms, hterms]
      · simpa [hsplit] using hpart
      · refine .step (Reads.bind hconnective (Reads.commit ?_)) ?_ ?_
        · simpa [Nat.add_assoc] using hfirst
        · simp [hbefore.1]
        · simpa [Nat.add_assoc] using htail

theorem Part.reads {level : Level} : ∀ (part : Part level),
    part.WellFormed operators → part.Representable → ∀ fuel, part.depth ≤ fuel →
    ∀ rest, level.PartFollows rest → ∀ offset,
      Reads (level.part operators (expression operators fuel)) offset part.chars rest
        (part.term offset)
  | .conjunction chain, hwell, hnumber, fuel, hdepth, rest, hrest, offset =>
      (chain.readsChain hwell hnumber fuel hdepth rest hrest offset).reads
  | .parentheses before inner after, hwell, hnumber, fuel, hdepth, rest, hrest, offset => by
      obtain ⟨hbefore, hinnerWell, hafter⟩ := hwell
      cases fuel with
      | zero => exact absurd hdepth (Nat.not_succ_le_zero _)
      | succ fuel =>
          have hinner := (inner.readsChain hinnerWell hnumber fuel (Nat.le_of_succ_le_succ hdepth)
            (after ++ ')' :: rest) (follows_end hafter (by simp [Nesting.isCloser]))
            (offset + byteLength ('(' :: before))).reads
          exact (reads_bracketed hbefore hafter (Chain.head_not_separator hinnerWell _) (by decide)
            hinner).either _
  | .path head steps ending, hwell, hnumber, fuel, hdepth, rest, hrest, offset => by
      obtain ⟨hhead, hstepsWell, hendingWell⟩ := hwell
      have hcloses := closesPath_ending hendingWell hrest
      have hname := reads_name hhead (steps_head steps hcloses) offset
      have hsteps := (steps.repeats hstepsWell hnumber.1 fuel hdepth _ hcloses
        (offset + byteLength head)).reads
      have hending : Reads (optional (Parser.ending operators))
          (offset + byteLength head + byteLength steps.chars)
          (ending.elim [] EndingSpelling.chars) rest
          (ending.map fun e => e.ending (offset + byteLength (head ++ steps.chars))) := by
        rw [byteLength_append, ← Nat.add_assoc]
        cases ending with
        | none => exact (refuses_ending hrest _).optional
        | some e => exact (reads_ending (hendingWell e rfl) (hnumber.2 e rfl) hrest _).optional
      have hparts : Reads (pathParts operators (expression operators fuel)) offset
          (head ++ (steps.chars ++ ending.elim [] EndingSpelling.chars)) rest
          (⟨String.ofList head, ⟨offset, offset + byteLength head⟩⟩,
            steps.steps (offset + byteLength head),
            ending.map fun e => e.ending (offset + byteLength (head ++ steps.chars))) := by
        refine Reads.bind ?_ (hsteps.bind (hending.bind_nil (reads_pure ..)))
        simpa using hname
      have hparenthesis :
          (head ++ (steps.chars ++ ending.elim [] EndingSpelling.chars) ++ rest).head? ≠
            some '(' := by
        rw [List.append_assoc]
        exact head?_ne_of_class (head_isRun hhead) (by decide)
      exact Refuses.either ((refuses_char hparenthesis offset).bind _)
        (hparts.spanned.bind_nil (reads_pure ..))

theorem Steps.repeats : ∀ (steps : Steps),
    steps.WellFormed operators → steps.Representable → ∀ fuel, steps.depth ≤ fuel →
    ∀ rest, ClosesPath rest → ∀ offset,
      Repeats (pathStep (expression operators fuel)) offset steps.chars rest (steps.steps offset)
  | .done, _, _, fuel, _, rest, hrest, offset => by
      have hpoint : rest.head? ≠ some '.' := fun h => absurd (hrest '.' h) (by decide)
      have hopener : rest.head? ≠ some '[' := fun h => absurd (hrest '[' h) (by decide)
      exact .stop (((refuses_char hpoint offset).bind _).either_refuses
        (((refuses_char hopener offset).bind _).bind _))
  | .segment name more, hwell, hnumber, fuel, hdepth, rest, hrest, offset => by
      have hmore := more.repeats hwell.2 hnumber fuel hdepth rest hrest
        (offset + byteLength ('.' :: name))
      rw [Steps.chars, Steps.steps, ← List.cons_append]
      exact .step (reads_segment hwell.1 (steps_head more hrest) _ offset) (by simp) hmore
  | .group before inner after more, hwell, hnumber, fuel, hdepth, rest, hrest, offset => by
      obtain ⟨hbefore, hinnerWell, hafter, hmoreWell⟩ := hwell
      simp only [Steps.depth, Nat.max_le] at hdepth
      cases fuel with
      | zero => exact absurd hdepth.1 (Nat.not_succ_le_zero _)
      | succ fuel =>
          have hmore := more.repeats hmoreWell hnumber.2 (fuel + 1) hdepth.2 rest hrest
            (offset + byteLength ('[' :: (before ++ (inner.chars ++ (after ++ [']'])))))
          have hinner := (inner.readsChain hinnerWell hnumber.1 fuel
            (Nat.le_of_succ_le_succ hdepth.1) (after ++ ']' :: (more.chars ++ rest))
            (follows_end hafter (by simp [Nesting.isCloser]))
            (offset + byteLength ('[' :: before))).reads
          have htext : (Steps.group before inner after more).chars =
              ('[' :: (before ++ (inner.chars ++ (after ++ [']'])))) ++ more.chars := by
            simp [Steps.chars]
          rw [htext, Steps.steps]
          refine .step ?_ (by simp) hmore
          exact reads_group hbefore hafter (Chain.head_not_separator hinnerWell _) hinner
end

end Derivations

mutual
/-- Every level of brackets takes a character. -/
theorem Chain.depth_le {level : Level} : ∀ (chain : Chain level), chain.depth ≤ chain.chars.length
  | .last part => part.depth_le
  | .cons part before after more => by
      have hpart := part.depth_le
      have hmore := more.depth_le
      simp only [Chain.depth, Chain.chars, List.length_append]
      omega

theorem Part.depth_le {level : Level} : ∀ (part : Part level), part.depth ≤ part.chars.length
  | .conjunction chain => chain.depth_le
  | .parentheses before inner after => by
      have hinner := inner.depth_le
      simp only [Part.depth, Part.chars, List.length_cons, List.length_append]
      omega
  | .path head steps ending => by
      have hsteps := steps.depth_le
      simp only [Part.depth, Part.chars, List.length_append]
      omega

theorem Steps.depth_le : ∀ (steps : Steps), steps.depth ≤ steps.chars.length
  | .done => Nat.zero_le _
  | .segment name more => by
      have hmore := more.depth_le
      simp only [Steps.depth, Steps.chars, List.length_cons, List.length_append]
      omega
  | .group before inner after more => by
      have hinner := inner.depth_le
      have hmore := more.depth_le
      simp only [Steps.depth, Steps.chars, List.length_cons, List.length_append]
      omega
end

theorem Derivation.depth_le_length {d : Derivation} {source : String}
    (hsource : d.chars = source.toList) : d.expression.depth ≤ source.length := by
  have hle := d.expression.depth_le
  rw [← String.length_toList, ← hsource]
  simp only [Derivation.chars, List.length_append]
  omega

/-- A text with a derivation is read as the term of the derivation. -/
theorem Derivation.parse_eq_ok {operators : OperatorTable} {d : Derivation}
    (hwell : d.WellFormed operators) (hnumber : d.Representable) {source : String}
    (hsource : d.chars = source.toList) : Term.parse operators source = .ok d.term := by
  obtain ⟨hbefore, hexpression, hafter⟩ := hwell
  have hchain := (d.expression.readsChain hexpression hnumber source.length
    (depth_le_length hsource) (d.after ++ []) (follows_end hafter (by simp))
    (0 + byteLength d.before)).reads
  have hread : Reads (filterText operators (source.length + 1)) 0 d.chars [] d.term := by
    have hend : Reads (do separators; labelled "`AND`, `OR` or end of input" atEnd; pure d.term)
        (0 + byteLength d.before + byteLength d.expression.chars) d.after [] d.term :=
      (Reads.bind_pure (reads_run hafter (by simp) _)).bind_nil
        (((reads_atEnd _).labelled _).bind_nil (reads_pure ..))
    have hspan : d.expression.term (0 + byteLength d.before) = d.term := by
      rw [Nat.zero_add]
      rfl
    refine Reads.bind (Reads.bind_pure (reads_run hbefore ?_ 0)) (Reads.bind hchain ?_)
    · rw [List.append_assoc]
      exact Chain.head_not_separator hexpression _
    · exact hspan ▸ hend
  unfold Reads at hread
  rw [List.append_nil, hsource] at hread
  simp only [Term.parse, Parser.parse, Cursor.start, hread]

end Grammar

end RequestQuery
