import RequestQuery.Proofs.Filter.Soundness
import RequestQuery.Select.Item

/-!
# Writing a select back

`SelectItem.render` writes items as they were read, and `SelectItem.placeList` gives them the spans they
have in that text. Every list of items that is well formed is read from its rendering, with those
spans.
-/

namespace RequestQuery

namespace Nesting

/-- How many parentheses are open behind a character of a parameter value; none if it is the one that
ends the value. -/
def depthBehind (quotes : QuoteState) (depth : Nat) (c : Char) : Option Nat :=
  if quotes.skips c then some depth
  else if c = '(' then some (depth + 1)
  else if c = ')' then
    match depth with
    | 0 => none
    | depth + 1 => some depth
  else some depth

/-- Parentheses outside quoted strings match, and no string is left open. -/
def closesEven : QuoteState → Nat → List Char → Bool
  | quotes, depth, [] => quotes == .outside && depth == 0
  | quotes, depth, c :: cs =>
      match depthBehind quotes depth c with
      | some depth => closesEven (quotes.step c) depth cs
      | none => false

theorem valueChars_cons (quotes : QuoteState) (depth : Nat) (c : Char) (cs : List Char) :
    valueChars quotes depth (c :: cs) =
      match depthBehind quotes depth c with
      | some depth => c :: valueChars (quotes.step c) depth cs
      | none => [] := by
  conv_lhs => unfold valueChars
  unfold depthBehind
  by_cases hskip : quotes.skips c = true
  · simp only [hskip, if_true]
  · by_cases hopener : c = '('
    · subst hopener
      simp [hskip]
    · by_cases hcloser : c = ')'
      · subst hcloser
        cases depth <;> simp [hskip]
      · simp [hskip, hopener, hcloser]

theorem depthBehind_eq_none {quotes : QuoteState} {depth : Nat} {c : Char} :
    depthBehind quotes depth c = none ↔ quotes = .outside ∧ depth = 0 ∧ c = ')' := by
  unfold depthBehind
  by_cases hcloser : c = ')'
  · subst hcloser
    cases quotes <;> cases depth <;> simp [QuoteState.skips]
  · by_cases hopener : c = '('
    · cases quotes <;> simp [QuoteState.skips, hopener]
    · cases quotes <;> simp [QuoteState.skips, hopener, hcloser]

/-- A value in which parentheses match ends at the next closing one. -/
theorem valueChars_of_closesEven {cs : List Char} {quotes : QuoteState} {depth : Nat}
    (h : closesEven quotes depth cs = true) (rest : List Char) :
    valueChars quotes depth (cs ++ ')' :: rest) = cs := by
  induction cs generalizing quotes depth with
  | nil =>
      simp only [closesEven, Bool.and_eq_true, beq_iff_eq] at h
      have hend := depthBehind_eq_none.mpr ⟨h.1, h.2, rfl⟩
      rw [List.nil_append, valueChars_cons, hend]
  | cons c cs ih =>
      rw [List.cons_append, valueChars_cons]
      rw [closesEven] at h
      cases hbehind : depthBehind quotes depth c with
      | none => simp [hbehind] at h
      | some depth' =>
          simp only [hbehind] at h ⊢
          rw [ih h]

theorem closesEven_of_valueChars {cs value rest : List Char} {quotes : QuoteState} {depth : Nat}
    (hvalue : valueChars quotes depth cs = value) (hcs : cs = value ++ ')' :: rest) :
    closesEven quotes depth value = true := by
  induction cs generalizing quotes depth value with
  | nil => simp at hcs
  | cons c cs ih =>
      rw [valueChars_cons] at hvalue
      cases hbehind : depthBehind quotes depth c with
      | none =>
          simp only [hbehind] at hvalue
          have hend := depthBehind_eq_none.mp hbehind
          simp [← hvalue, closesEven, hend]
      | some depth' =>
          simp only [hbehind] at hvalue
          subst hvalue
          simp only [closesEven, hbehind]
          exact ih rfl (by simpa using hcs)

theorem valueChars_isPrefix (quotes : QuoteState) (depth : Nat) (cs : List Char) :
    valueChars quotes depth cs <+: cs := by
  induction cs generalizing quotes depth with
  | nil => exact List.nil_prefix
  | cons c cs ih =>
      rw [valueChars_cons]
      cases depthBehind quotes depth c with
      | none => exact List.nil_prefix
      | some depth' => exact List.cons_prefix_cons.mpr ⟨rfl, ih _ _⟩

end Nesting

/-- `(name=value)` -/
def RawParameter.chars (p : RawParameter) : List Char :=
  '(' :: (p.name.value.toList ++ '=' :: (p.value.value.toList ++ [')']))

/-- A parameter with the spans it has when its text starts at byte `offset`. -/
def RawParameter.place (p : RawParameter) (offset : Nat) : RawParameter :=
  let first := offset + byteLength ['(']
  let second := first + byteLength p.name.value.toList + byteLength ['=']
  ⟨⟨p.name.value, ⟨first, first + byteLength p.name.value.toList⟩⟩,
    ⟨p.value.value, ⟨second, second + byteLength p.value.value.toList⟩⟩⟩

def RawParameter.placeAll : List RawParameter → Nat → List RawParameter
  | [], _ => []
  | p :: rest, offset => p.place offset :: RawParameter.placeAll rest (offset + byteLength p.chars)

/-- What stands before a step that is not the first. -/
def SelectStep.joint : SelectStep → List Char
  | .named _ _ => ['.']
  | .group _ _ _ => []

mutual
def SelectItem.chars : SelectItem → List Char
  | .chain steps _ => SelectStep.listChars steps

def SelectItem.listChars : List SelectItem → List Char
  | [] => []
  | item :: rest => item.chars ++ SelectItem.moreChars rest

def SelectItem.moreChars : List SelectItem → List Char
  | [] => []
  | item :: rest => ',' :: (item.chars ++ SelectItem.moreChars rest)

/-- A step as it is written in first place. -/
def SelectStep.chars : SelectStep → List Char
  | .named name parameters => name.value.toList ++ parameters.flatMap RawParameter.chars
  | .group members parameters _ =>
      '[' :: (SelectItem.listChars members ++ ']' :: parameters.flatMap RawParameter.chars)

def SelectStep.listChars : List SelectStep → List Char
  | [] => []
  | step :: rest => step.chars ++ SelectStep.laterChars rest

def SelectStep.laterChars : List SelectStep → List Char
  | [] => []
  | step :: rest => step.joint ++ (step.chars ++ SelectStep.laterChars rest)
end

mutual
/-- A chain with the spans it has when its text starts at byte `offset`. -/
def SelectItem.place : SelectItem → Nat → SelectItem
  | .chain steps _, offset =>
      .chain (SelectStep.placeList steps offset)
        ⟨offset, offset + byteLength (SelectStep.listChars steps)⟩

def SelectItem.placeList : List SelectItem → Nat → List SelectItem
  | [], _ => []
  | item :: rest, offset =>
      item.place offset :: SelectItem.placeMore rest (offset + byteLength item.chars)

def SelectItem.placeMore : List SelectItem → Nat → List SelectItem
  | [], _ => []
  | item :: rest, offset =>
      item.place (offset + byteLength [',']) ::
        SelectItem.placeMore rest (offset + byteLength (',' :: item.chars))

/-- The span of a group is that of its brackets. -/
def SelectStep.place : SelectStep → Nat → SelectStep
  | .named name parameters, offset =>
      .named ⟨name.value, ⟨offset, offset + byteLength name.value.toList⟩⟩
        (RawParameter.placeAll parameters (offset + byteLength name.value.toList))
  | .group members parameters _, offset =>
      let stop := offset + byteLength ('[' :: (SelectItem.listChars members ++ [']']))
      .group (SelectItem.placeList members (offset + byteLength ['[']))
        (RawParameter.placeAll parameters stop) ⟨offset, stop⟩

def SelectStep.placeList : List SelectStep → Nat → List SelectStep
  | [], _ => []
  | step :: rest, offset =>
      step.place offset :: SelectStep.placeLater rest (offset + byteLength step.chars)

def SelectStep.placeLater : List SelectStep → Nat → List SelectStep
  | [], _ => []
  | step :: rest, offset =>
      step.place (offset + byteLength step.joint) ::
        SelectStep.placeLater rest (offset + byteLength (step.joint ++ step.chars))
end

def SelectItem.render (items : List SelectItem) : String :=
  String.ofList (SelectItem.listChars items)

/-- The characters of names, braces among them where they are allowed. -/
def nameClass (braces : Bool) : Char → Bool := if braces then isBraceNameChar else isNameChar

structure RawParameter.WellFormed (p : RawParameter) : Prop where
  name : IsRun isNameChar p.name.value.toList
  value : p.value.value.toList ≠ []
  even : Nesting.closesEven .outside 0 p.value.value.toList = true

mutual
/-- Braces are passed on to the first step of a chain and to the members of a group that is one. -/
def SelectItem.WellFormed (braces : Bool) : SelectItem → Prop
  | .chain steps _ => SelectStep.WellFormedList braces steps

def SelectItem.WellFormedList (braces : Bool) : List SelectItem → Prop
  | [] => True
  | item :: rest => item.WellFormed braces ∧ SelectItem.WellFormedList braces rest

def SelectStep.WellFormed (braces : Bool) : SelectStep → Prop
  | .named name parameters =>
      IsRun (nameClass braces) name.value.toList ∧ ∀ p ∈ parameters, p.WellFormed
  | .group members parameters _ =>
      SelectItem.WellFormedList braces members ∧ ∀ p ∈ parameters, p.WellFormed

def SelectStep.WellFormedList (braces : Bool) : List SelectStep → Prop
  | [] => False
  | step :: rest => step.WellFormed braces ∧ SelectStep.WellFormedLater rest

def SelectStep.WellFormedLater : List SelectStep → Prop
  | [] => True
  | step :: rest => step.WellFormed false ∧ SelectStep.WellFormedLater rest
end

mutual
/-- How many groups stand around one another. -/
def SelectItem.depth : SelectItem → Nat
  | .chain steps _ => SelectStep.depthList steps

def SelectItem.depthList : List SelectItem → Nat
  | [] => 0
  | item :: rest => max item.depth (SelectItem.depthList rest)

def SelectStep.depth : SelectStep → Nat
  | .named _ _ => 0
  | .group members _ _ => SelectItem.depthList members + 1

def SelectStep.depthList : List SelectStep → Nat
  | [] => 0
  | step :: rest => max step.depth (SelectStep.depthList rest)
end

namespace Parser

theorem attributeName_eq (braces : Bool) :
    attributeName braces = labelled "attribute name" (spanned (textOf (nameClass braces))) := by
  cases braces <;> rfl

theorem reads_attributeName {braces : Bool} {text rest : List Char}
    (htext : IsRun (nameClass braces) text)
    (hrest : ∀ c ∈ rest.head?, nameClass braces c = false) (offset : Nat) :
    Reads (attributeName braces) offset text rest
      ⟨String.ofList text, ⟨offset, offset + byteLength text⟩⟩ := by
  rw [attributeName_eq]
  exact (reads_textOf htext.1 htext.2 hrest offset).spanned.labelled _

theorem refuses_attributeName {braces : Bool} {rest : List Char}
    (hrest : ∀ c ∈ rest.head?, nameClass braces c = false) (offset : Nat) :
    Refuses (attributeName braces) offset rest := by
  rw [attributeName_eq]
  exact ((refuses_run1 hrest offset).bind _).spanned.labelled _

theorem reads_parameterText {value : List Char} (hne : value ≠ [])
    (heven : Nesting.closesEven .outside 0 value = true) (rest : List Char) (offset : Nat) :
    Reads parameterText offset value (')' :: rest) (String.ofList value) := by
  obtain ⟨c, cs, rfl⟩ := List.exists_cons_of_ne_nil hne
  unfold Reads parameterText
  rw [Nesting.valueChars_of_closesEven heven rest]
  simp only [Cursor.skip, List.drop_left]

theorem reads_parameter {p : RawParameter} (h : p.WellFormed) (rest : List Char) (offset : Nat) :
    Reads parameter offset p.chars rest (p.place offset) := by
  let first := offset + byteLength ['(']
  let second := first + byteLength p.name.value.toList + byteLength ['=']
  let name : Spanned String := ⟨p.name.value, ⟨first, first + byteLength p.name.value.toList⟩⟩
  have hname : Reads Parser.name first p.name.value.toList
      ('=' :: (p.value.value.toList ++ ')' :: rest)) name := by
    have hequals : ∀ c ∈ ('=' :: (p.value.value.toList ++ ')' :: rest)).head?,
        isNameChar c = false := by
      intro c hc
      cases hc
      decide
    have hread := Grammar.reads_name h.name hequals first
    rwa [String.ofList_toList] at hread
  have hvalue : Reads (spanned parameterText) second p.value.value.toList (')' :: rest)
      (p.place offset).value := by
    have hread := (reads_parameterText h.value h.even rest second).spanned
    rwa [String.ofList_toList] at hread
  have hbehind : Reads (do
      labelled "`=`" (char '=')
      let value ← labelled "parameter value" (spanned parameterText)
      labelled "`)`" (char ')')
      pure (RawParameter.mk name value)) (first + byteLength p.name.value.toList)
      ('=' :: (p.value.value.toList ++ [')'])) rest (p.place offset) := by
    refine ((reads_char '=' _ _).labelled _).bind (Reads.bind (a := (p.place offset).value) ?_ ?_)
    · exact hvalue.labelled _
    · exact ((reads_char ')' _ rest).labelled _).bind_nil (reads_pure ..)
  have htail : '=' :: (p.value.value.toList ++ [')']) ++ rest =
      '=' :: (p.value.value.toList ++ ')' :: rest) := by simp
  refine (reads_char '(' offset _).bind (Reads.commit (Reads.bind (a := name) ?_ hbehind))
  exact htail ▸ hname

theorem repeats_parameters {parameters : List RawParameter} (h : ∀ p ∈ parameters, p.WellFormed)
    {rest : List Char} (hrest : rest.head? ≠ some '(') (offset : Nat) :
    Repeats parameter offset (parameters.flatMap RawParameter.chars) rest
      (RawParameter.placeAll parameters offset) := by
  induction parameters generalizing offset with
  | nil => exact .stop ((refuses_char hrest offset).bind _)
  | cons p parameters ih =>
      rw [List.forall_mem_cons] at h
      have hmore := ih h.2 (offset + byteLength p.chars)
      rw [List.flatMap_cons, RawParameter.placeAll]
      refine .step (reads_parameter h.1 _ offset) ?_ hmore
      simp [RawParameter.chars]

/-- The text is at its end or goes on with one of some characters. -/
def Follows (ends rest : List Char) : Prop := ∀ c ∈ rest.head?, c ∈ ends

theorem Follows.class_false {ends rest : List Char} (h : Follows ends rest) {p : Char → Bool}
    (hp : ends.all (fun c => !p c) = true) : ∀ c ∈ rest.head?, p c = false := by
  intro c hc
  simpa using List.all_eq_true.mp hp c (h c hc)

theorem Follows.head_ne {ends rest : List Char} (h : Follows ends rest) {c : Char}
    (hc : c ∉ ends) : rest.head? ≠ some c := by
  intro hhead
  exact hc (h c hhead)

theorem follows_cons {ends : List Char} {c : Char} (hc : c ∈ ends) (rest : List Char) :
    Follows ends (c :: rest) := by
  intro d hd
  cases hd
  exact hc

theorem Follows.mono {ends ends' rest : List Char} (h : Follows ends rest) (hsub : ends ⊆ ends') :
    Follows ends' rest := by
  intro c hc
  exact hsub (h c hc)

/-- What may come behind a step, behind an item and behind a list of items. -/
def stepEnds : List Char := ['.', '[', ',', ']']

def itemEnds : List Char := [',', ']']

def listEnds : List Char := [']']

theorem nameClass_false {braces : Bool} {rest : List Char} (h : Follows ('(' :: stepEnds) rest) :
    ∀ c ∈ rest.head?, nameClass braces c = false := by
  apply h.class_false
  cases braces <;> decide

theorem follows_parameters (parameters : List RawParameter) {rest : List Char}
    (hrest : Follows stepEnds rest) :
    Follows ('(' :: stepEnds) (parameters.flatMap RawParameter.chars ++ rest) := by
  cases parameters with
  | nil => exact hrest.mono (List.subset_cons_self _ _)
  | cons p parameters => exact follows_cons (List.mem_cons_self ..) _

theorem reads_namedStep {braces : Bool} {name : Spanned String} {parameters : List RawParameter}
    (hname : IsRun (nameClass braces) name.value.toList) (h : ∀ p ∈ parameters, p.WellFormed)
    {rest : List Char} (hrest : Follows stepEnds rest) (offset : Nat) :
    Reads (namedStep braces) offset (SelectStep.named name parameters).chars rest
      ((SelectStep.named name parameters).place offset) := by
  have hread := reads_attributeName hname
    (nameClass_false (follows_parameters parameters hrest)) offset
  rw [String.ofList_toList] at hread
  have hparameters := (repeats_parameters h (hrest.head_ne (by decide))
    (offset + byteLength name.value.toList)).reads
  exact hread.bind hparameters.bind_pure

theorem reads_groupStep {inner : Parser (List SelectItem)} {text rest : List Char}
    {found : Option (List SelectItem)} {parameters : List RawParameter}
    (h : ∀ p ∈ parameters, p.WellFormed) (hrest : Follows stepEnds rest) {offset : Nat}
    (hinner : Reads (optional inner) (offset + byteLength ['[']) text
      (']' :: (parameters.flatMap RawParameter.chars ++ rest)) found) :
    Reads (groupStep inner) offset ('[' :: (text ++ ']' :: parameters.flatMap RawParameter.chars))
      rest
      (.group (found.getD [])
        (RawParameter.placeAll parameters (offset + byteLength ('[' :: (text ++ [']']))))
        ⟨offset, offset + byteLength ('[' :: (text ++ [']']))⟩) := by
  have hbrackets : Reads (groupMembers inner) offset ('[' :: (text ++ [']']))
      (parameters.flatMap RawParameter.chars ++ rest) (found.getD []) := by
    refine (reads_char '[' offset _).bind (Reads.commit (Reads.bind (a := found) ?_ ?_))
    · exact hinner
    · exact ((reads_char ']' _ _).labelled _).bind_nil (reads_pure ..)
  have hparameters := (repeats_parameters h (hrest.head_ne (by decide))
    (offset + byteLength ('[' :: (text ++ [']'])))).reads
  have htext : '[' :: (text ++ ']' :: parameters.flatMap RawParameter.chars) =
      '[' :: (text ++ [']']) ++ parameters.flatMap RawParameter.chars := by simp
  rw [htext]
  exact hbrackets.spanned.bind hparameters.bind_pure

theorem refuses_itemList {rest : List Char} (hrest : Follows listEnds rest) (fuel : Nat)
    (braces : Bool) (offset : Nat) : Refuses (itemList fuel braces) offset rest := by
  cases fuel with
  | zero => exact ⟨_, rfl⟩
  | succ fuel =>
      have hname : Refuses (namedStep braces) offset rest :=
        (refuses_attributeName (hrest.class_false (by cases braces <;> decide)) offset).bind _
      have hgroup : Refuses (groupStep (itemList fuel braces)) offset rest :=
        ((refuses_char (hrest.head_ne (by decide)) offset).bind _).spanned.bind _
      exact (((hname.either_refuses hgroup).bind _).spanned.bind _).bind _

end Parser

section Items

open RequestQuery.Parser

theorem SelectStep.chars_ne_nil {step : SelectStep} {braces : Bool} (h : step.WellFormed braces) :
    step.chars ≠ [] := by
  cases step with
  | named name parameters => simp [SelectStep.chars, h.1.1]
  | group members parameters span => simp [SelectStep.chars]

theorem SelectItem.follows_moreChars (items : List SelectItem) {rest : List Char}
    (hrest : Follows listEnds rest) : Follows itemEnds (SelectItem.moreChars items ++ rest) := by
  cases items with
  | nil => exact hrest.mono (by decide)
  | cons item items => exact follows_cons (by decide) _

theorem SelectStep.follows_laterChars (steps : List SelectStep) {rest : List Char}
    (hrest : Follows itemEnds rest) : Follows stepEnds (SelectStep.laterChars steps ++ rest) := by
  cases steps with
  | nil => exact hrest.mono (by decide)
  | cons step steps => cases step <;> exact follows_cons (by decide) _

/-- The parser that a step is for. -/
def SelectStep.parser (braces : Bool) (inner : Parser (List SelectItem)) :
    SelectStep → Parser SelectStep
  | .named _ _ => namedStep braces
  | .group _ _ _ => groupStep inner

theorem SelectStep.refuses_namedStep (members : List SelectItem) (parameters : List RawParameter)
    (span : Span) (braces : Bool) (rest : List Char) (offset : Nat) :
    Refuses (namedStep braces) offset ((SelectStep.group members parameters span).chars ++ rest) := by
  refine (refuses_attributeName ?_ offset).bind _
  intro c hc
  cases hc
  cases braces <;> decide

theorem SelectStep.reads_first {step : SelectStep} {braces : Bool}
    {inner : Parser (List SelectItem)} {rest : List Char} {offset : Nat}
    (h : Reads (step.parser braces inner) offset step.chars rest (step.place offset)) :
    Reads (either (namedStep braces) (groupStep inner)) offset step.chars rest
      (step.place offset) := by
  cases step with
  | named name parameters => exact h.either _
  | group members parameters span =>
      exact (refuses_namedStep members parameters span braces rest offset).either h

theorem SelectStep.reads_next {step : SelectStep} {inner : Bool → Parser (List SelectItem)}
    {rest : List Char} {offset : Nat}
    (h : Reads (step.parser false (inner false)) (offset + byteLength step.joint) step.chars rest
      (step.place (offset + byteLength step.joint))) :
    Reads (nextStep inner) offset (step.joint ++ step.chars) rest
      (step.place (offset + byteLength step.joint)) := by
  cases step with
  | named name parameters => exact ((reads_char '.' offset _).bind h.commit).either _
  | group members parameters span =>
      refine Refuses.either ((refuses_char ?_ offset).bind _) h
      simp [SelectStep.joint, SelectStep.chars]

mutual
theorem SelectItem.reads : ∀ (item : SelectItem) (braces : Bool), item.WellFormed braces →
    ∀ fuel, item.depth ≤ fuel → ∀ rest, Follows itemEnds rest → ∀ offset,
      Reads (Parser.item (itemList fuel) braces) offset item.chars rest (item.place offset)
  | .chain steps _, braces, hwell, fuel, hdepth, rest, hrest, offset =>
      (SelectStep.readsList steps braces hwell fuel hdepth rest hrest offset).spanned.bind_nil
        (reads_pure ..)

theorem SelectItem.readsList : ∀ (items : List SelectItem) (braces : Bool), items ≠ [] →
    SelectItem.WellFormedList braces items → ∀ fuel, SelectItem.depthList items ≤ fuel →
    ∀ rest, Follows listEnds rest → ∀ offset,
      Reads (itemList (fuel + 1) braces) offset (SelectItem.listChars items) rest
        (SelectItem.placeList items offset)
  | [], _, hne, _, _, _, _, _, _ => absurd rfl hne
  | item :: more, braces, _, hwell, fuel, hdepth, rest, hrest, offset => by
      simp only [SelectItem.depthList, Nat.max_le] at hdepth
      have hfirst := item.reads braces hwell.1 fuel hdepth.1 (SelectItem.moreChars more ++ rest)
        (SelectItem.follows_moreChars more hrest) offset
      have hmore := (SelectItem.repeatsMore more braces hwell.2 fuel hdepth.2 rest hrest
        (offset + byteLength item.chars)).reads
      exact hfirst.bind hmore.bind_pure

theorem SelectItem.repeatsMore : ∀ (items : List SelectItem) (braces : Bool),
    SelectItem.WellFormedList braces items → ∀ fuel, SelectItem.depthList items ≤ fuel →
    ∀ rest, Follows listEnds rest → ∀ offset,
      Repeats (do char ','; commit (Parser.item (itemList fuel) braces)) offset
        (SelectItem.moreChars items) rest (SelectItem.placeMore items offset)
  | [], _, _, _, _, rest, hrest, offset =>
      .stop ((refuses_char (hrest.head_ne (by decide)) offset).bind _)
  | item :: more, braces, hwell, fuel, hdepth, rest, hrest, offset => by
      simp only [SelectItem.depthList, Nat.max_le] at hdepth
      have hfirst := item.reads braces hwell.1 fuel hdepth.1 (SelectItem.moreChars more ++ rest)
        (SelectItem.follows_moreChars more hrest) (offset + byteLength [','])
      have hmore := SelectItem.repeatsMore more braces hwell.2 fuel hdepth.2 rest hrest
        (offset + byteLength (',' :: item.chars))
      rw [SelectItem.moreChars, SelectItem.placeMore, ← List.cons_append]
      exact .step ((reads_char ',' offset _).bind hfirst.commit) (by simp) hmore

theorem SelectStep.reads : ∀ (step : SelectStep) (braces : Bool), step.WellFormed braces →
    ∀ fuel, step.depth ≤ fuel → ∀ rest, Follows stepEnds rest → ∀ offset,
      Reads (step.parser braces (itemList fuel braces)) offset step.chars rest (step.place offset)
  | .named name parameters, braces, hwell, fuel, _, rest, hrest, offset =>
      reads_namedStep hwell.1 hwell.2 hrest offset
  | .group [] parameters span, braces, hwell, fuel, _, rest, hrest, offset => by
      have hend : Follows listEnds (']' :: (parameters.flatMap RawParameter.chars ++ rest)) :=
        follows_cons (List.mem_cons_self ..) _
      exact reads_groupStep hwell.2 hrest (refuses_itemList hend fuel braces _).optional
  | .group (item :: more) parameters span, braces, hwell, fuel + 1, hdepth, rest, hrest, offset => by
      have hmembers := (SelectItem.readsList (item :: more) braces (List.cons_ne_nil _ _) hwell.1
        fuel (Nat.le_of_succ_le_succ hdepth)
        (']' :: (parameters.flatMap RawParameter.chars ++ rest))
        (follows_cons (List.mem_cons_self ..) _) (offset + byteLength ['['])).optional
      exact reads_groupStep hwell.2 hrest hmembers

theorem SelectStep.readsList : ∀ (steps : List SelectStep) (braces : Bool),
    SelectStep.WellFormedList braces steps → ∀ fuel, SelectStep.depthList steps ≤ fuel →
    ∀ rest, Follows itemEnds rest → ∀ offset,
      Reads (chainSteps (itemList fuel) braces) offset (SelectStep.listChars steps) rest
        (SelectStep.placeList steps offset)
  | [], _, hwell, _, _, _, _, _ => hwell.elim
  | step :: more, braces, hwell, fuel, hdepth, rest, hrest, offset => by
      simp only [SelectStep.depthList, Nat.max_le] at hdepth
      have hfirst := SelectStep.reads_first (step.reads braces hwell.1 fuel hdepth.1
        (SelectStep.laterChars more ++ rest) (SelectStep.follows_laterChars more hrest) offset)
      have hmore := (SelectStep.repeatsLater more hwell.2 fuel hdepth.2 rest hrest
        (offset + byteLength step.chars)).reads
      exact hfirst.bind hmore.bind_pure

theorem SelectStep.repeatsLater : ∀ (steps : List SelectStep),
    SelectStep.WellFormedLater steps → ∀ fuel, SelectStep.depthList steps ≤ fuel →
    ∀ rest, Follows itemEnds rest → ∀ offset,
      Repeats (nextStep (itemList fuel)) offset (SelectStep.laterChars steps) rest
        (SelectStep.placeLater steps offset)
  | [], _, _, _, rest, hrest, offset => by
      have hpoint : rest.head? ≠ some '.' := hrest.head_ne (by decide)
      have hopener : rest.head? ≠ some '[' := hrest.head_ne (by decide)
      exact .stop (((refuses_char hpoint offset).bind _).either_refuses
        (((refuses_char hopener offset).bind _).spanned.bind _))
  | step :: more, hwell, fuel, hdepth, rest, hrest, offset => by
      simp only [SelectStep.depthList, Nat.max_le] at hdepth
      have hfirst := SelectStep.reads_next (step.reads false hwell.1 fuel hdepth.1
        (SelectStep.laterChars more ++ rest) (SelectStep.follows_laterChars more hrest)
        (offset + byteLength step.joint))
      have hmore := SelectStep.repeatsLater more hwell.2 fuel hdepth.2 rest hrest
        (offset + byteLength (step.joint ++ step.chars))
      rw [SelectStep.laterChars, SelectStep.placeLater, ← List.append_assoc]
      have hne : step.joint ++ step.chars ≠ [] := by simp [SelectStep.chars_ne_nil hwell.1]
      exact .step hfirst hne hmore
end

end Items

end RequestQuery
