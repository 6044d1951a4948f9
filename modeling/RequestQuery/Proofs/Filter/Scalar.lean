import RequestQuery.Proofs.Filter.Derivation
import RequestQuery.Proofs.Reading.Parser

/-!
# Literals and values are read as they are spelled

The parsers of literals and values read every spelling that the grammar allows, if what follows cannot
belong to it, and read nothing else.
-/

namespace RequestQuery

namespace Grammar

open RequestQuery.Parser

/-- The characters that may stand behind an operand: separators and closing brackets. -/
def endChars : List Char := [' ', '\t', '\r', '\n', ')', ']']

/-- Nothing stands here that could belong to an operand. -/
def Ends (rest : List Char) : Prop := ∀ c ∈ rest.head?, c ∈ endChars

theorem Ends.head_of_all {rest : List Char} (h : Ends rest) {p : Char → Bool}
    (hp : endChars.all (fun c => !p c) = true) : ∀ c ∈ rest.head?, p c = false := by
  intro c hc
  simpa using List.all_eq_true.mp hp c (h c hc)

/-- Nothing stands here that could belong to a literal: no name character, and no fraction. -/
structure ClosesLiteral (rest : List Char) : Prop where
  name : ∀ c ∈ rest.head?, isNameChar c = false
  fraction : ∀ tail, rest = '.' :: tail → ∀ c ∈ tail.head?, c.isDigit = false

theorem Ends.closesLiteral {rest : List Char} (h : Ends rest) : ClosesLiteral rest := by
  refine ⟨h.head_of_all (by decide), ?_⟩
  rintro tail rfl
  have hpoint := h '.' rfl
  exact absurd hpoint (by decide)

theorem closesLiteral_cons {c : Char} (rest : List Char) (hname : isNameChar c = false)
    (hpoint : c ≠ '.') : ClosesLiteral (c :: rest) := by
  refine ⟨fun d hd => ?_, ?_⟩
  · cases hd
    exact hname
  · intro tail htail
    exact absurd (List.cons.inj htail).1 hpoint

theorem closesLiteral_points (rest : List Char) : ClosesLiteral ('.' :: '.' :: rest) := by
  refine ⟨fun d hd => ?_, ?_⟩
  · cases hd
    decide
  · intro tail htail d hd
    rw [← (List.cons.inj htail).2] at hd
    cases hd
    decide

theorem isNameChar_of_isDigit {c : Char} (h : c.isDigit = true) : isNameChar c = true := by
  simp [isNameChar, Char.isAlphanum, h]

theorem head_isRun {p : Char → Bool} {run rest : List Char} (h : IsRun p run) :
    ∀ c ∈ (run ++ rest).head?, p c = true := by
  obtain ⟨c, cs, rfl⟩ := List.exists_cons_of_ne_nil h.1
  intro d hd
  cases hd
  exact List.all_eq_true.mp h.2 c (List.mem_cons_self ..)

theorem head?_ne_of_class {p : Char → Bool} {text : List Char} (h : ∀ c ∈ text.head?, p c = true)
    {d : Char} (hd : p d = false) : text.head? ≠ some d := by
  intro heq
  rw [h d heq] at hd
  cases hd

private theorem reads_stringChar (c : Char) (offset : Nat) (rest : List Char) :
    Reads stringChar offset (Literal.escapeChar c) rest c := by
  by_cases hquote : c = '"'
  · subst hquote
    rfl
  · by_cases hslash : c = '\\'
    · subst hslash
      rfl
    · simp [Reads, stringChar, Literal.escapeChar, hquote, hslash]

private theorem repeats_stringChar (cs : List Char) (offset : Nat) (rest : List Char) :
    Repeats stringChar offset (cs.flatMap Literal.escapeChar) ('"' :: rest) cs := by
  induction cs generalizing offset with
  | nil => exact .stop ⟨_, rfl⟩
  | cons c cs ih =>
      rw [List.flatMap_cons]
      refine .step (reads_stringChar c offset _) ?_ (ih _)
      unfold Literal.escapeChar
      split <;> simp

theorem reads_string (cs : List Char) (offset : Nat) (rest : List Char) :
    Reads string offset (Spelling.quoted cs).chars rest (String.ofList cs) := by
  have hquote : Reads (labelled "closing `\"`" (commit (char '"')))
      (offset + byteLength ['"'] + byteLength (cs.flatMap Literal.escapeChar)) ['"'] rest () :=
    (reads_char '"' _ rest).commit.labelled _
  exact (reads_char '"' offset _).bind
    ((repeats_stringChar cs _ rest).reads.bind hquote.bind_pure)

private theorem stringChar_eq_done {cursor next : Cursor} {c : Char}
    (h : stringChar cursor = .done c next) : cursor.Passes (Literal.escapeChar c) next := by
  obtain ⟨offset, rest⟩ := cursor
  cases rest with
  | nil => cases h
  | cons d rest =>
      simp only [stringChar] at h
      split at h
      next => cases h
      next hquote =>
        split at h
        next hslash =>
          cases rest with
          | nil => cases h
          | cons e rest =>
              simp only at h
              split at h
              next hescaped =>
                cases h
                refine ⟨by simp [Literal.escapeChar, hescaped, hslash], ?_⟩
                simp [Literal.escapeChar, hescaped, hslash, Nat.add_assoc]
              next => cases h
        next hslash =>
          cases h
          exact ⟨by simp [Literal.escapeChar, hquote, hslash],
            by simp [Literal.escapeChar, hquote, hslash]⟩

private theorem repeated_stringChar {cursor next : Cursor} {cs : List Char}
    (h : Repeated stringChar cursor cs next) :
    cursor.Passes (cs.flatMap Literal.escapeChar) next := by
  induction h with
  | stop cursor => exact .refl cursor
  | step first more ih => exact (stringChar_eq_done first).trans ih

theorem string_eq_done {cursor next : Cursor} {s : String} (h : string cursor = .done s next) :
    ∃ cs, cursor.Passes (Spelling.quoted cs).chars next ∧ s = String.ofList cs := by
  obtain ⟨_, inside, hopen, h⟩ := bind_eq_done.mp h
  obtain ⟨cs, behind, hcs, h⟩ := bind_eq_done.mp h
  obtain ⟨_, last, hclose, h⟩ := bind_eq_done.mp h
  obtain ⟨rfl, rfl⟩ := pure_eq_done.mp h
  rw [labelled_eq_done, commit_eq_done] at hclose
  exact ⟨cs, ((char_eq_done hopen).trans (repeated_stringChar (many_eq_done hcs))).trans
    (char_eq_done hclose), rfl⟩

private def fractionChars (fraction : Option (List Char)) : List Char :=
  fraction.elim [] fun digits => '.' :: digits

private theorem numeral_chars (n : Numeral) :
    n.chars = (if n.negative then ['-'] else []) ++ (n.whole ++ fractionChars n.fraction) := by
  rw [Numeral.chars, List.append_assoc]
  cases n.fraction <;> rfl

private theorem ClosesLiteral.digit {rest : List Char} (h : ClosesLiteral rest) :
    ∀ c ∈ rest.head?, c.isDigit = false := by
  intro c hc
  by_contra hdigit
  have hname := h.name c hc
  rw [isNameChar_of_isDigit (by simpa using hdigit)] at hname
  cases hname

private theorem reads_fraction {fraction : Option (List Char)} {rest : List Char}
    (hfraction : ∀ digits ∈ fraction, IsRun Char.isDigit digits) (hrest : ClosesLiteral rest)
    (offset : Nat) :
    Reads (optional do char '.'; run1 Char.isDigit) offset (fractionChars fraction) rest
      fraction := by
  cases fraction with
  | some digits =>
      obtain ⟨hne, hall⟩ := hfraction digits rfl
      exact ((reads_char '.' offset _).bind (reads_run1 hne hall hrest.digit _)).optional
  | none =>
      apply Refuses.optional
      by_cases hpoint : rest.head? = some '.'
      · obtain ⟨tail, rfl⟩ := List.head?_eq_some_iff.mp hpoint
        exact (reads_char '.' offset tail).bind_refuses
          (refuses_run1 (hrest.fraction tail rfl) _)
      · exact (refuses_char hpoint offset).bind _

theorem reads_numeral {n : Numeral} (hn : n.WellFormed) {rest : List Char}
    (hrest : ClosesLiteral rest) (offset : Nat) : Reads numeral offset n.chars rest n := by
  obtain ⟨negative, whole, fraction⟩ := n
  obtain ⟨hwhole, hfraction⟩ := hn
  rw [numeral_chars]
  simp only at hwhole hfraction ⊢
  have hsign : ∃ sign : Option Unit, sign.isSome = negative ∧ ∀ more,
      Reads (optional (char '-')) offset (if negative then ['-'] else []) (whole ++ more) sign := by
    cases negative with
    | true => exact ⟨some (), rfl, fun more => (reads_char '-' offset _).optional⟩
    | false =>
        refine ⟨none, rfl, fun more => Refuses.optional (refuses_char ?_ offset)⟩
        exact head?_ne_of_class (head_isRun hwhole) (show Char.isDigit '-' = false by decide)
  have hbehind : ∀ c ∈ (fractionChars fraction ++ rest).head?, c.isDigit = false := by
    cases fraction with
    | some digits => intro c hc; cases hc; decide
    | none => exact hrest.digit
  obtain ⟨sign, rfl, hsign⟩ := hsign
  have hsignRest := hsign (fractionChars fraction ++ rest)
  rw [← List.append_assoc] at hsignRest
  refine hsignRest.bind ((reads_run1 hwhole.1 hwhole.2 hbehind _).bind ?_)
  exact (reads_fraction hfraction hrest _).bind_pure

theorem numeral_eq_done {cursor next : Cursor} {n : Numeral} (h : numeral cursor = .done n next) :
    n.WellFormed ∧ cursor.Passes n.chars next := by
  obtain ⟨sign, mid, hsign, h⟩ := bind_eq_done.mp h
  obtain ⟨whole, mid', hwhole, h⟩ := bind_eq_done.mp h
  obtain ⟨fraction, last, hfraction, h⟩ := bind_eq_done.mp h
  obtain ⟨rfl, rfl⟩ := pure_eq_done.mp h
  obtain ⟨hwholePasses, hwholeNe, hwholeAll⟩ := run1_eq_done hwhole
  have hsignPasses : cursor.Passes (if sign.isSome then ['-'] else []) mid := by
    rcases optional_eq_done hsign with ⟨_, rfl, hchar⟩ | ⟨rfl, rfl⟩
    · exact char_eq_done hchar
    · exact .refl _
  rcases optional_eq_done hfraction with ⟨digits, rfl, hdigits⟩ | ⟨rfl, rfl⟩
  · obtain ⟨_, behind, hpoint, hrun⟩ := bind_eq_done.mp hdigits
    obtain ⟨hrunPasses, hrunNe, hrunAll⟩ := run1_eq_done hrun
    refine ⟨⟨⟨hwholeNe, hwholeAll⟩, ?_⟩, ?_⟩
    · intro ds hds
      cases hds
      exact ⟨hrunNe, hrunAll⟩
    · exact (hsignPasses.trans hwholePasses).trans ((char_eq_done hpoint).trans hrunPasses)
  · refine ⟨⟨⟨hwholeNe, hwholeAll⟩, fun ds hds => by cases hds⟩, ?_⟩
    simpa [Numeral.chars] using hsignPasses.trans hwholePasses

theorem head_numeral {n : Numeral} (hn : n.WellFormed) (rest : List Char) :
    ∀ c ∈ (n.chars ++ rest).head?, (c.isDigit || c == '-') = true := by
  obtain ⟨negative, whole, fraction⟩ := n
  rw [numeral_chars]
  cases negative with
  | true => intro c hc; cases hc; rfl
  | false =>
      intro c hc
      simp only [Bool.false_eq_true, if_false, List.nil_append, List.append_assoc] at hc
      rw [head_isRun hn.1 c hc, Bool.true_or]

/-- The kinds of literals that their first character tells apart. -/
private def kindOf (c : Char) : Nat :=
  if c = '"' then 0 else if c.isDigit || c == '-' then 1 else 2

private def Spelling.kind : Spelling → Nat
  | .quoted _ => 0
  | .number _ => 1
  | .boolean _ => 2
  | .null => 2

private theorem kindOf_head {s : Spelling} (hs : s.WellFormed) (rest : List Char) :
    ∃ c, (s.chars ++ rest).head? = some c ∧ kindOf c = s.kind := by
  cases s with
  | quoted cs => exact ⟨'"', rfl, rfl⟩
  | boolean b => cases b <;> exact ⟨_, rfl, by decide⟩
  | null => exact ⟨'n', rfl, by decide⟩
  | number n =>
      have hne : n.chars ++ rest ≠ [] := by
        rw [numeral_chars]
        simp [hs.1.1]
      obtain ⟨c, cs, hcs⟩ := List.exists_cons_of_ne_nil hne
      have hhead : (n.chars ++ rest).head? = some c := by rw [hcs]; rfl
      have hc := head_numeral hs rest c hhead
      have hquote : c ≠ '"' := by
        rintro rfl
        exact absurd hc (by decide)
      exact ⟨c, hhead, by simp only [kindOf, if_neg hquote, if_pos hc, Spelling.kind]⟩

private theorem reads_keyword {s : Spelling} (hs : s.kind = 2) {rest : List Char}
    (hrest : ClosesLiteral rest) (offset : Nat) : Reads keyword offset s.chars rest s.literal := by
  have hword : ∀ (letters : List Char) (meant : Literal), IsRun isNameChar letters →
      keyword? letters = some meant → Reads keyword offset letters rest meant := by
    intro letters meant hletters hmeant
    have hrun := reads_run1 hletters.1 hletters.2 hrest.name offset
    unfold Reads at hrun
    simp only [Reads, keyword, hrun, hmeant]
  cases s with
  | quoted cs | number n => cases hs
  | boolean b => cases b <;> exact hword _ _ (by decide) (by decide)
  | null => exact hword _ _ (by decide) (by decide)

theorem refuses_string {text : List Char} (h : text.head? ≠ some '"') (offset : Nat) :
    Refuses (do let s ← string; pure (Literal.text s)) offset text :=
  Refuses.bind (Refuses.bind (refuses_char h offset) _) _

private theorem refuses_number {text : List Char}
    (h : ∀ c ∈ text.head?, (c.isDigit || c == '-') = false) (offset : Nat) :
    Refuses number offset text := by
  have hminus : text.head? ≠ some '-' := fun heq => absurd (h '-' heq) (by decide)
  have hdigit : ∀ c ∈ text.head?, c.isDigit = false := fun c hc => (Bool.or_eq_false_iff.mp (h c hc)).1
  obtain ⟨stop, hstop⟩ : Refuses numeral offset text :=
    Reads.bind_refuses (Refuses.optional (refuses_char hminus offset))
      ((refuses_run1 hdigit _).bind _)
  exact ⟨stop, by simp only [number, hstop]⟩

theorem head_spelling {s : Spelling} (hs : s.WellFormed) (rest : List Char) :
    ∀ c ∈ (s.chars ++ rest).head?, (isNameChar c || c == '"' || c == '-') = true := by
  cases s with
  | quoted cs => intro c hc; cases hc; rfl
  | number n =>
      intro c hc
      have hhead := head_numeral hs rest c hc
      rcases Bool.or_eq_true _ _ ▸ hhead with hdigit | hminus
      · simp [isNameChar_of_isDigit hdigit]
      · simp [hminus]
  | boolean b => cases b <;> (intro c hc; cases hc; decide)
  | null => intro c hc; cases hc; decide

theorem reads_literal {s : Spelling} (hs : s.WellFormed) (hnumber : s.Representable)
    {rest : List Char} (hrest : ClosesLiteral rest) (offset : Nat) :
    Reads literal offset s.chars rest s.literal := by
  have hword : s.kind = 2 → Reads literal offset s.chars rest s.literal := by
    intro hkind
    obtain ⟨c, hc, hckind⟩ := kindOf_head hs rest
    rw [hkind] at hckind
    have hquote : (s.chars ++ rest).head? ≠ some '"' := by
      rw [hc]
      rintro ⟨⟩
      exact absurd hckind (by decide)
    have hdigit : ∀ d ∈ (s.chars ++ rest).head?, (d.isDigit || d == '-') = false := by
      intro d hd
      rw [hc] at hd
      cases hd
      by_contra hnumber
      rw [Bool.not_eq_false] at hnumber
      simp only [kindOf, hnumber, if_true] at hckind
      split at hckind <;> cases hckind
    exact ((refuses_string hquote offset).either ((refuses_number hdigit offset).either
      (reads_keyword hkind hrest offset))).labelled _
  cases s with
  | quoted cs => exact ((reads_string cs offset rest).bind_pure.either _).labelled _
  | boolean b => exact hword rfl
  | null => exact hword rfl
  | number n =>
      obtain ⟨meant, hmeant⟩ := hnumber
      have hnumeral := reads_numeral hs hrest offset
      have hread : Reads number offset n.chars rest (Spelling.number n).literal := by
        unfold Reads at hnumeral
        simp only [Reads, number, hnumeral, hmeant, Spelling.literal]
      have hquote : (n.chars ++ rest).head? ≠ some '"' :=
        head?_ne_of_class (head_numeral hs rest) (by decide)
      exact ((refuses_string hquote offset).either (hread.either keyword)).labelled _

theorem literal_eq_done {cursor next : Cursor} {l : Literal} (h : literal cursor = .done l next) :
    ∃ s : Spelling, s.WellFormed ∧ s.Representable ∧ cursor.Passes s.chars next ∧
      l = s.literal := by
  unfold literal at h
  rw [labelled_eq_done] at h
  rcases either_eq_done h with hstring | hother
  · obtain ⟨text, mid, htext, hpure⟩ := bind_eq_done.mp hstring
    obtain ⟨rfl, rfl⟩ := pure_eq_done.mp hpure
    obtain ⟨cs, hpasses, rfl⟩ := string_eq_done htext
    exact ⟨.quoted cs, trivial, trivial, hpasses, rfl⟩
  rcases either_eq_done hother with hnumber | hkeyword
  · unfold number at hnumber
    split at hnumber
    next n mid hn =>
      obtain ⟨hwell, hpasses⟩ := numeral_eq_done hn
      split at hnumber <;> cases hnumber
      next hliteral =>
        exact ⟨.number n, hwell, ⟨l, hliteral⟩, hpasses, by simp only [Spelling.literal, hliteral]⟩
    next => cases hnumber
    next => cases hnumber
  · unfold keyword at hkeyword
    split at hkeyword
    next letters mid hletters =>
      obtain ⟨hpasses, -, -⟩ := run1_eq_done hletters
      split at hkeyword <;> cases hkeyword
      next hmeant =>
        unfold keyword? at hmeant
        repeat' split at hmeant
        all_goals cases hmeant
        next hword =>
          subst hword
          exact ⟨.boolean true, trivial, trivial, hpasses, rfl⟩
        next hword =>
          subst hword
          exact ⟨.boolean false, trivial, trivial, hpasses, rfl⟩
        next hword =>
          subst hword
          exact ⟨.null, trivial, trivial, hpasses, rfl⟩
    next => cases hkeyword
    next => cases hkeyword

theorem closesLiteral_more (more : List Spelling) {rest : List Char} (hrest : Ends rest) :
    ClosesLiteral ((more.flatMap fun s => ',' :: s.chars) ++ rest) := by
  cases more with
  | nil => exact hrest.closesLiteral
  | cons s more => exact closesLiteral_cons _ (by decide) (by decide)

private theorem reads_more {more : List Spelling} (hwell : ∀ s ∈ more, s.WellFormed)
    (hnumber : ∀ s ∈ more, s.Representable) {rest : List Char} (hrest : Ends rest) (offset : Nat) :
    Repeats (do char ','; commit literal) offset (more.flatMap fun s => ',' :: s.chars) rest
      (more.map Spelling.literal) := by
  induction more generalizing offset with
  | nil =>
      have hcomma : rest.head? ≠ some ',' := fun h => absurd (hrest ',' h) (by decide)
      exact .stop ((refuses_char hcomma offset).bind _)
  | cons s more ih =>
      have hs := reads_literal (hwell s (List.mem_cons_self ..)) (hnumber s (List.mem_cons_self ..))
        (closesLiteral_more more hrest) (offset + byteLength [','])
      rw [List.flatMap_cons, List.map_cons]
      refine .step ((reads_char ',' offset _).bind hs.commit) (by simp) ?_
      exact ih (fun t ht => hwell t (List.mem_cons_of_mem _ ht))
        (fun t ht => hnumber t (List.mem_cons_of_mem _ ht)) _

theorem refuses_range {text : List Char} (h : text.head? ≠ some '.') (offset : Nat) :
    Refuses (do word ['.', '.']; commit literal) offset text := by
  refine (refuses_word ?_ offset).bind _
  rintro ⟨rest, rfl⟩
  exact h rfl

/-- A value is read as it is spelled. -/
theorem reads_value {v : ValueSpelling} (hv : v.WellFormed) (hnumber : v.Representable)
    {rest : List Char} (hrest : Ends rest) (offset : Nat) :
    Reads value offset v.chars rest v.value := by
  have hpoint : rest.head? ≠ some '.' := fun h => absurd (hrest '.' h) (by decide)
  have hliteral : ∀ s ∈ v.literals, ∀ (offset : Nat) (rest : List Char), ClosesLiteral rest →
      Reads literal offset s.chars rest s.literal :=
    fun s hs offset rest hrest => reads_literal (hv s hs) (hnumber s hs) hrest offset
  cases v with
  | single s =>
      have hcomma : rest.head? ≠ some ',' := fun h => absurd (hrest ',' h) (by decide)
      have hs := hliteral s (by simp [ValueSpelling.literals]) offset rest hrest.closesLiteral
      have hmore : ∀ offset, Reads (many do char ','; commit literal) offset [] rest [] :=
        fun offset => (Repeats.stop ((refuses_char hcomma offset).bind _)).reads
      refine hs.bind_nil ((refuses_range hpoint _).optional.nil_bind ?_)
      exact Reads.nil_bind (hmore _) (reads_pure (Value.single s.literal) _ rest)
  | range first last =>
      have hfirst := hliteral first (by simp [ValueSpelling.literals]) offset
        ('.' :: '.' :: last.chars ++ rest) (closesLiteral_points _)
      have hlast := hliteral last (by simp [ValueSpelling.literals])
        (offset + byteLength first.chars + byteLength ['.', '.']) rest hrest.closesLiteral
      exact hfirst.bind (Reads.bind_nil ((reads_word ['.', '.'] _ _).bind hlast.commit).optional
        (reads_pure ..))
  | set first second more =>
      have hfirst := hliteral first (by simp [ValueSpelling.literals]) offset
        (((second :: more).flatMap fun s => ',' :: s.chars) ++ rest)
        (closesLiteral_cons _ (by decide) (by decide))
      have hmore := (reads_more (fun t ht => hv t (List.mem_cons_of_mem _ ht))
        (fun t ht => hnumber t (List.mem_cons_of_mem _ ht)) hrest
        (offset + byteLength first.chars)).reads
      exact hfirst.bind (Refuses.optional (refuses_range (by simp) _) |>.nil_bind
        (hmore.bind_nil (reads_pure ..)))

private theorem repeated_more {cursor next : Cursor} {literals : List Literal}
    (h : Repeated (do char ','; commit literal) cursor literals next) :
    ∃ more : List Spelling, (∀ s ∈ more, s.WellFormed) ∧ (∀ s ∈ more, s.Representable) ∧
      cursor.Passes (more.flatMap fun s => ',' :: s.chars) next ∧
      literals = more.map Spelling.literal := by
  induction h with
  | stop cursor => exact ⟨[], by simp, by simp, .refl _, rfl⟩
  | step first _ ih =>
      obtain ⟨_, behind, hcomma, hliteral⟩ := bind_eq_done.mp first
      obtain ⟨s, hs, hsnumber, hspasses, rfl⟩ := literal_eq_done (commit_eq_done.mp hliteral)
      obtain ⟨more, hmore, hmorenumber, hmorepasses, rfl⟩ := ih
      refine ⟨s :: more, by simpa using ⟨hs, hmore⟩, by simpa using ⟨hsnumber, hmorenumber⟩, ?_, rfl⟩
      exact ((char_eq_done hcomma).trans hspasses).trans hmorepasses

theorem head_value {v : ValueSpelling} (hv : v.WellFormed) (rest : List Char) :
    ∀ c ∈ (v.chars ++ rest).head?, (isNameChar c || c == '"' || c == '-') = true := by
  have hfirst : ∃ s ∈ v.literals, ∃ tail, v.chars = s.chars ++ tail := by
    cases v with
    | single s => exact ⟨s, by simp [ValueSpelling.literals], [], by simp [ValueSpelling.chars]⟩
    | range first last => exact ⟨first, by simp [ValueSpelling.literals], _, rfl⟩
    | set first second more => exact ⟨first, by simp [ValueSpelling.literals], _, rfl⟩
  obtain ⟨s, hs, tail, htail⟩ := hfirst
  rw [htail, List.append_assoc]
  exact head_spelling (hv s hs) _

/-- Only spelled values are read. -/
theorem value_eq_done {cursor next : Cursor} {value : Value}
    (h : Parser.value cursor = .done value next) :
    ∃ v : ValueSpelling, v.WellFormed ∧ v.Representable ∧ cursor.Passes v.chars next ∧
      value = v.value := by
  obtain ⟨first, mid, hfirst, hbehind⟩ := bind_eq_done.mp h
  clear h
  obtain ⟨s, hs, hsnumber, hspasses, rfl⟩ := literal_eq_done hfirst
  obtain ⟨last, mid', hlast, hend⟩ := bind_eq_done.mp hbehind
  clear hbehind
  rcases optional_eq_done hlast with ⟨last', rfl, hrange⟩ | ⟨rfl, rfl⟩
  · obtain ⟨_, behind, hpoints, hsecond⟩ := bind_eq_done.mp hrange
    obtain ⟨t, ht, htnumber, htpasses, rfl⟩ := literal_eq_done (commit_eq_done.mp hsecond)
    obtain ⟨rfl, rfl⟩ := pure_eq_done.mp hend
    refine ⟨.range s t, ?_, ?_, hspasses.trans ((word_eq_done hpoints).trans htpasses), rfl⟩
    · simp [ValueSpelling.WellFormed, ValueSpelling.literals, hs, ht]
    · simp [ValueSpelling.Representable, ValueSpelling.literals, hsnumber, htnumber]
  · obtain ⟨more, behind, hmore, hpure⟩ := bind_eq_done.mp hend
    obtain ⟨ss, hss, hssnumber, hsspasses, rfl⟩ := repeated_more (many_eq_done hmore)
    cases ss with
    | nil =>
        obtain ⟨rfl, rfl⟩ := pure_eq_done.mp hpure
        refine ⟨.single s, ?_, ?_, ?_, rfl⟩
        · simpa [ValueSpelling.WellFormed, ValueSpelling.literals] using hs
        · simpa [ValueSpelling.Representable, ValueSpelling.literals] using hsnumber
        · simpa [ValueSpelling.chars] using hspasses.trans hsspasses
    | cons t ss =>
        obtain ⟨rfl, rfl⟩ := pure_eq_done.mp hpure
        refine ⟨.set s t ss, ?_, ?_, hspasses.trans hsspasses, rfl⟩
        · exact List.forall_mem_cons.mpr ⟨hs, hss⟩
        · exact List.forall_mem_cons.mpr ⟨hsnumber, hssnumber⟩

theorem Spelling.unique {s s' : Spelling} (hs : s.WellFormed) (hs' : s'.WellFormed)
    {rest rest' : List Char} (hrest : ClosesLiteral rest) (hrest' : ClosesLiteral rest')
    (h : s.chars ++ rest = s'.chars ++ rest') : s = s' ∧ rest = rest' := by
  have hkind : s.kind = s'.kind := by
    obtain ⟨c, hc, hkind⟩ := kindOf_head hs rest
    obtain ⟨c', hc', hkind'⟩ := kindOf_head hs' rest'
    rw [h, hc'] at hc
    cases hc
    rw [← hkind, hkind']
  have hword : s.kind = 2 → s'.kind = 2 → s.literal = s'.literal ∧ rest = rest' := by
    intro hs2 hs2'
    obtain ⟨hliteral, -, hrests⟩ :=
      (reads_keyword hs2 hrest 0).unique (reads_keyword hs2' hrest' 0) h
    exact ⟨hliteral, hrests⟩
  cases s with
  | quoted cs =>
      cases s' with
      | quoted cs' =>
          obtain ⟨hcs, -, hrests⟩ := (reads_string cs 0 rest).unique (reads_string cs' 0 rest') h
          exact ⟨by rw [String.ofList_injective hcs], hrests⟩
      | number n' | boolean b' | null => cases hkind
  | number n =>
      cases s' with
      | number n' =>
          obtain ⟨hn, -, hrests⟩ :=
            (reads_numeral hs hrest 0).unique (reads_numeral hs' hrest' 0) h
          exact ⟨by rw [hn], hrests⟩
      | quoted cs' | boolean b' | null => cases hkind
  | boolean b =>
      cases s' with
      | quoted cs' | number n' => cases hkind
      | boolean b' =>
          obtain ⟨hliteral, hrests⟩ := hword rfl rfl
          cases hliteral
          exact ⟨rfl, hrests⟩
      | null => cases (hword rfl rfl).1
  | null =>
      cases s' with
      | quoted cs' | number n' => cases hkind
      | boolean b' => cases (hword rfl rfl).1
      | null => exact ⟨rfl, (hword rfl rfl).2⟩

end Grammar

end RequestQuery
