/-
  Which texts are comma-separated records, and which records they are.

  The grammar is written down without the reader:

    * A field is bare, or it stands between quotation marks with its own quotation marks doubled (`FieldText`).
    * A record is fields with commas between them (`RecordText`).
    * A text is records with line breaks between them (`Reads`).  A record of no characters is left out, each other
      record stands on the lines of its first and its last character.

  The grammar does not say how to read a carriage return with a line feed behind it: as one line break, or as two with an
  empty record between them.  It does not matter (`scan_reads` carries both readings), as the lines are counted in the
  text.

  That the reader makes of a text what the grammar says is an induction over the grammar.  That it refuses every other text
  is not an induction over the reader's states: a text is cut into the longest pieces that the grammar allows, and where
  that fails, the reader stops (`cut_field`, `cut_record`, `reads_or_refused`).
-/
import Stencil.Csv

set_option autoImplicit false

namespace Stencil.Csv

variable {before text w ws v cs rest b : List Char} {c : Char} {vs : List String} {p q r : Progress} {rs done : List Record}

/-! ## The grammar -/

/-- A text with every line break as a line feed. -/
def feeds : List Char → List Char
  | [] => []
  | '\r' :: '\n' :: cs => '\n' :: feeds cs
  | c :: cs => (if c = '\r' then '\n' else c) :: feeds cs

/-- How many line breaks a text has. -/
def lineBreaks (cs : List Char) : Nat := (feeds cs).count '\n'

/-- A text with its quotation marks doubled. -/
def double (cs : List Char) : List Char := cs.flatMap fun c => if c = '"' then ['"', '"'] else [c]

/-- Whether a character may stand in a bare field. -/
def Bare (c : Char) : Prop := c ≠ '"' ∧ c ≠ ',' ∧ c ≠ '\n' ∧ c ≠ '\r'

/-- How a field is written. -/
inductive FieldText : List Char → String → Prop
  | bare {w : List Char} (plain : ∀ c ∈ w, Bare c) : FieldText w (String.ofList w)
  | quoted (v : List Char) : FieldText ('"' :: double v ++ ['"']) (String.ofList (feeds v))

/-- How a record is written. -/
inductive RecordText : List Char → List String → Prop
  | one {w : List Char} {v : String} (field : FieldText w v) : RecordText w [v]
  | more {w ws : List Char} {v : String} {vs : List String} (field : FieldText w v) (fields : RecordText ws vs) :
    RecordText (w ++ ',' :: ws) (v :: vs)

/-- What separates records. -/
def Break (b : List Char) : Prop := b = ['\n'] ∨ b = ['\r'] ∨ b = ['\r', '\n']

/-- The record of the fields that are written as `w` behind `before`, unless it has no character. -/
def kept (before w : List Char) (vs : List String) : List Record :=
  if w = [] then [] else [⟨vs, 1 + lineBreaks before, 1 + lineBreaks (before ++ w.dropLast)⟩]

/-- The text behind `before` is that of records. -/
inductive Reads : List Char → List Char → List Record → Prop
  | last {before w : List Char} {vs : List String} (record : RecordText w vs) : Reads before w (kept before w vs)
  | more {before w b text : List Char} {vs : List String} {rs : List Record} (record : RecordText w vs) (ends : Break b)
    (records : Reads (before ++ w ++ b) text rs) : Reads before (w ++ b ++ text) (kept before w vs ++ rs)

/-! ## Line breaks -/

/-- A character whose successor does not belong to it. -/
theorem feeds_cons (h : c = '\r' → cs.head? ≠ some '\n') :
    feeds (c :: cs) = (if c = '\r' then '\n' else c) :: feeds cs := by
  rw [feeds]
  rintro cs' rfl rfl
  exact h rfl rfl

/-- No line break stands across the end of `w`. -/
def Seam (w rest : List Char) : Prop := w.getLast? = some '\r' → rest.head? ≠ some '\n'

theorem feeds_append (h : Seam w rest) : feeds (w ++ rest) = feeds w ++ feeds rest := by
  induction w using feeds.induct with
  | case1 => rfl
  | case2 cs ih =>
    have hcs : Seam cs rest := fun hlast => h (by cases cs with | nil => cases hlast | cons => simpa using hlast)
    rw [List.cons_append, List.cons_append, feeds, feeds, ih hcs, List.cons_append]
  | case3 c cs hfeed ih =>
    cases cs with
    | nil =>
      have hc : c = '\r' → rest.head? ≠ some '\n' := fun heq => h (by rw [heq]; rfl)
      have hnil : c = '\r' → ([] : List Char).head? ≠ some '\n' := fun _ hd => nomatch hd
      rw [List.singleton_append, feeds_cons hc, feeds_cons hnil]
      rfl
    | cons d ds =>
      have hc : c = '\r' → (d :: ds).head? ≠ some '\n' := fun heq hd => by
        cases hd
        exact hfeed ds heq rfl
      have hfirst : c = '\r' → (d :: ds ++ rest).head? ≠ some '\n' := hc
      have hds : Seam (d :: ds) rest := fun hlast => h (by rw [List.getLast?_cons_cons]; exact hlast)
      rw [List.cons_append, feeds_cons hc, feeds_cons (c := c) hfirst, ih hds, List.cons_append]

theorem lineBreaks_append (h : Seam w rest) : lineBreaks (w ++ rest) = lineBreaks w + lineBreaks rest := by
  unfold lineBreaks
  rw [feeds_append h, List.count_append]

theorem seam_of_not_feed (h : ∀ c ∈ rest.head?, c ≠ '\n') : Seam w rest := fun _ hc => h _ hc rfl

/-- A text without carriage returns has only line feeds. -/
theorem feeds_of_not_mem (h : '\r' ∉ cs) : feeds cs = cs := by
  induction cs with
  | nil => rfl
  | cons c cs ih =>
    have hc : c ≠ '\r' := fun heq => List.ne_of_not_mem_cons h heq.symm
    rw [feeds_cons fun heq => absurd heq hc, if_neg hc, ih (List.not_mem_of_not_mem_cons h)]

theorem lineBreaks_singleton (hfeed : c ≠ '\n') (hreturn : c ≠ '\r') : lineBreaks [c] = 0 := by
  unfold lineBreaks
  rw [feeds_of_not_mem fun hc => hreturn (List.mem_singleton.mp hc).symm]
  exact List.count_eq_zero.mpr fun hc => hfeed (List.mem_singleton.mp hc).symm

theorem lineBreaks_break (h : Break b) : lineBreaks b = 1 := by
  obtain rfl | rfl | rfl := h <;> decide

/-! ## One step of the reader -/

/-- A line break ends a record, unless it stands between quotation marks. -/
theorem scan_break (h : Break b) (hrest : b = ['\r'] → rest.head? ≠ some '\n') :
    scan done p (b ++ rest) = if p.place = .quoted then scan done (p.newline b.length) rest
      else scan (p.close done) (.begin (p.line + 1) rest) rest := by
  obtain rfl | rfl | rfl := h
  · rw [List.singleton_append, scan, if_pos (.inl rfl)]
    · rfl
    · exact fun _ heq => absurd heq (by decide)
  · rw [List.singleton_append, scan, if_pos (.inr rfl)]
    · rfl
    · rintro cs - rfl
      exact hrest rfl rfl
  · rw [List.cons_append, List.singleton_append, scan]
    rfl

/-- Every other character belongs to the field, or it ends or refuses it. -/
theorem scan_char (hfeed : c ≠ '\n') (hreturn : c ≠ '\r') :
    scan done p (c :: cs) = match p.place with
      | .quoted => if c = '"' then scan done (p.move .closed) cs else scan done (p.take .quoted c) cs
      | .closed =>
        if c = '"' then scan done (p.take .quoted c) cs
        else if c = ',' then scan done p.comma cs
        else .error (p.refuse done p.taken "unexpected character after closing quote")
      | .bare =>
        if c = '"' then .error (p.refuse done p.taken "quote inside an unquoted field")
        else if c = ',' then scan done p.comma cs
        else scan done (p.take .bare c) cs
      | .start =>
        if c = '"' then scan done (p.move .quoted) cs
        else if c = ',' then scan done p.comma cs
        else scan done (p.take .bare c) cs := by
  have hnone : ∀ rest, c = '\r' → cs = '\n' :: rest → False := fun _ heq => absurd heq hreturn
  exact (scan.eq_3 done p c cs hnone).trans (if_neg (not_or.mpr ⟨hfeed, hreturn⟩))

/-- A comma ends a field, unless it stands between quotation marks. -/
theorem scan_comma (h : p.place ≠ .quoted) : scan done p (',' :: cs) = scan done p.comma cs := by
  rw [scan_char (by decide) (by decide)]
  cases hp : p.place with
  | quoted => exact absurd hp h
  | start | bare | closed => rfl

/-- The end of the text ends a record, unless it stands between quotation marks. -/
theorem scan_end (h : p.place ≠ .quoted) : scan done p [] = .ok (p.close done).reverse := by
  rw [scan, if_neg h]

/-! ## Reading a field -/

/-- What the reader knows after a piece `w` of the current field, whose value is `x`. -/
structure Took (p q : Progress) (w x : List Char) : Prop where
  fields : q.fields = p.fields
  field : q.field = x.reverse ++ p.field
  touched : q.touched = true ↔ p.touched = true ∨ w ≠ []
  startLine : q.startLine = p.startLine
  line : q.line = p.line + lineBreaks w

theorem Took.nil (p : Progress) : Took p p [] [] :=
  ⟨rfl, rfl, (or_iff_left (not_not_intro rfl)).symm, rfl, rfl⟩

theorem Took.trans {x y : List Char} (h : Took p q w x) (h' : Took q r ws y) (seam : Seam w ws) :
    Took p r (w ++ ws) (x ++ y) where
  fields := h'.fields.trans h.fields
  field := by rw [h'.field, h.field, List.reverse_append, List.append_assoc]
  touched := by
    rw [h'.touched, h.touched, or_assoc, ne_eq, ne_eq, ne_eq, List.append_eq_nil_iff,
      Decidable.not_and_iff_not_or_not]
  startLine := h'.startLine.trans h.startLine
  line := by rw [h'.line, h.line, lineBreaks_append seam, Nat.add_assoc]

theorem took_take (place : Place) (hfeed : c ≠ '\n') (hreturn : c ≠ '\r') : Took p (p.take place c) [c] [c] where
  fields := rfl
  field := rfl
  touched := iff_of_true rfl (.inr (List.cons_ne_nil _ _))
  startLine := rfl
  line := by
    rw [lineBreaks_singleton hfeed hreturn]
    rfl

theorem took_move (place : Place) : Took p (p.move place) ['"'] [] :=
  ⟨rfl, rfl, iff_of_true rfl (.inr (List.cons_ne_nil _ _)), rfl, rfl⟩

theorem took_newline (h : Break b) (ht : p.touched = true) : Took p (p.newline b.length) b ['\n'] where
  fields := rfl
  field := rfl
  touched := iff_of_true ht (.inl ht)
  startLine := rfl
  line := by
    rw [lineBreaks_break h]
    rfl

/-- The characters of a bare field are taken as they are. -/
theorem scan_bare (done : List Record) (h : ∀ c ∈ w, Bare c) (hp : p.place = .start ∨ p.place = .bare)
    (rest : List Char) :
    ∃ q, scan done p (w ++ rest) = scan done q rest ∧ q.place = (if w = [] then p.place else .bare) ∧ Took p q w w := by
  induction w generalizing p with
  | nil => exact ⟨p, rfl, (if_pos rfl).symm, .nil p⟩
  | cons c cs ih =>
    obtain ⟨hquote, hcomma, hfeed, hreturn⟩ := h c List.mem_cons_self
    have hstep : scan done p (c :: (cs ++ rest)) = scan done (p.take .bare c) (cs ++ rest) := by
      rw [scan_char hfeed hreturn]
      obtain hplace | hplace := hp <;> rw [hplace] <;> dsimp only <;> rw [if_neg hquote, if_neg hcomma]
    obtain ⟨q, hscan, hq, took⟩ := ih (p := p.take .bare c) (fun d hd => h d (List.mem_cons_of_mem _ hd)) (.inr rfl)
    have hplace : q.place = .bare := by
      rw [hq]
      split <;> rfl
    have hseam : Seam [c] cs := fun hlast => absurd (Option.some.inj hlast) hreturn
    exact ⟨q, hstep.trans hscan, by rw [if_neg (List.cons_ne_nil _ _), hplace],
      (took_take .bare hfeed hreturn).trans took hseam⟩

/-- A character between quotation marks, one that is doubled if it is a quotation mark itself. -/
theorem scan_doubled (done : List Record) (hp : p.place = .quoted) (ht : p.touched = true) {rest : List Char}
    (hbehind : c = '\r' → rest.head? ≠ some '\n') :
    ∃ q, scan done p (double [c] ++ rest) = scan done q rest ∧ q.place = .quoted
      ∧ Took p q (double [c]) [if c = '\r' then '\n' else c] := by
  by_cases hquote : c = '"'
  · subst hquote
    have hstep : scan done p ('"' :: '"' :: rest) = scan done ((p.move .closed).take .quoted '"') rest := by
      rw [scan_char (by decide) (by decide), hp]
      dsimp only
      rw [if_pos rfl, scan_char (by decide) (by decide)]
      rfl
    exact ⟨_, hstep, rfl,
      (took_move .closed).trans (took_take .quoted (by decide) (by decide)) fun hlast => absurd hlast (by decide)⟩
  · rw [show double [c] = [c] by rw [double, List.flatMap_cons, if_neg hquote]; rfl]
    by_cases hline : c = '\n' ∨ c = '\r'
    · have hbreak : Break [c] := hline.imp (congrArg ([·])) fun hc => .inl (congrArg ([·]) hc)
      have hstep : scan done p (c :: rest) = scan done (p.newline 1) rest :=
        (scan_break hbreak fun hc => hbehind (List.singleton_inj.mp hc)).trans (if_pos hp)
      have hvalue : (if c = '\r' then '\n' else c) = '\n' := by
        obtain rfl | rfl := hline <;> rfl
      rw [hvalue]
      exact ⟨_, hstep, hp, took_newline hbreak ht⟩
    · obtain ⟨hlf, hcr⟩ := not_or.mp hline
      have hstep : scan done p (c :: rest) = scan done (p.take .quoted c) rest := by
        rw [scan_char hlf hcr, hp]
        dsimp only
        rw [if_neg hquote]
      rw [if_neg hcr]
      exact ⟨_, hstep, rfl, took_take .quoted hlf hcr⟩

/-- Between quotation marks, doubled ones are taken once, and line breaks as line feeds. -/
theorem scan_double (done : List Record) (rest : List Char) (hp : p.place = .quoted) (ht : p.touched = true)
    (hrest : ∀ c ∈ rest.head?, c ≠ '\n') (v : List Char) :
    ∃ q, scan done p (double v ++ rest) = scan done q rest ∧ q.place = .quoted ∧ Took p q (double v) (feeds v) := by
  induction v using feeds.induct generalizing p with
  | case1 => exact ⟨p, rfl, hp, .nil p⟩
  | case2 cs ih =>
    have hstep : scan done p ('\r' :: '\n' :: (double cs ++ rest)) = scan done (p.newline 2) (double cs ++ rest) :=
      (scan_break (b := ['\r', '\n']) (.inr (.inr rfl)) fun hb => nomatch hb).trans (if_pos hp)
    obtain ⟨q, hscan, hq, took⟩ := ih (p := p.newline 2) hp ht
    have hhere : Took p (p.newline 2) ['\r', '\n'] ['\n'] := took_newline (.inr (.inr rfl)) ht
    have hseam : Seam ['\r', '\n'] (double cs) := fun hlast => absurd hlast (by decide)
    refine ⟨q, hstep.trans hscan, hq, ?_⟩
    rw [feeds]
    exact hhere.trans took hseam
  | case3 c cs hfeed ih =>
    have hbehind : c = '\r' → (double cs ++ rest).head? ≠ some '\n' := by
      intro hc
      rcases cs with _ | ⟨d, ds⟩
      · exact fun hd => hrest _ hd rfl
      · show (List.head? ((if d = '"' then ['"', '"'] else [d]) ++ double ds ++ rest)) ≠ _
        split
        · exact fun hd => absurd (Option.some.inj hd) (by decide)
        · exact fun hd => hfeed ds hc (by rw [Option.some.inj hd])
    have hcs : c = '\r' → cs.head? ≠ some '\n' := by
      rintro hc hd
      obtain ⟨ds, rfl⟩ := List.head?_eq_some_iff.mp hd
      exact hfeed ds hc rfl
    -- the line break that `c` may be does not go on behind it
    have hseam : Seam (double [c]) (double cs) := by
      intro hlast hd
      refine hbehind ?_ (by rw [List.head?_append, hd]; rfl)
      by_cases hquote : c = '"'
      · subst hquote
        exact absurd hlast (by decide)
      · rw [double, List.flatMap_cons, if_neg hquote] at hlast
        exact Option.some.inj hlast
    have hdouble : double ([c] ++ cs) = double [c] ++ double cs := List.flatMap_append
    obtain ⟨q₁, hscan₁, hq₁, took₁⟩ := scan_doubled done hp ht hbehind
    obtain ⟨q, hscan, hq, took⟩ := ih hq₁ (took₁.touched.mpr (.inl ht))
    rw [feeds_cons hcs, ← List.singleton_append, hdouble, List.append_assoc]
    exact ⟨q, hscan₁.trans hscan, hq, took₁.trans took hseam⟩

/-- What is between quotation marks is read up to the second one. -/
theorem scan_quoted (done : List Record) (hp : p.place = .start) (v rest : List Char) :
    ∃ q, scan done p ('"' :: double v ++ '"' :: rest) = scan done q rest ∧ q.place = .closed
      ∧ Took p q ('"' :: double v ++ ['"']) (feeds v) := by
  have hopen : scan done p ('"' :: (double v ++ '"' :: rest)) = scan done (p.move .quoted) (double v ++ '"' :: rest) := by
    rw [scan_char (by decide) (by decide), hp]
    rfl
  have hfeed : ∀ c ∈ ('"' :: rest).head?, c ≠ '\n' := fun c hc => by cases hc; decide
  obtain ⟨q, hscan, hq, took⟩ := scan_double done (p := p.move .quoted) _ rfl rfl hfeed v
  have hclose : scan done q ('"' :: rest) = scan done (q.move .closed) rest := by
    rw [scan_char (by decide) (by decide), hq]
    rfl
  have hinside : Took p q ('"' :: double v) (feeds v) :=
    (took_move .quoted).trans took fun hlast => absurd hlast (by decide)
  have hall := hinside.trans (took_move .closed) (seam_of_not_feed fun c hc => by cases hc; decide)
  rw [List.append_nil] at hall
  exact ⟨q.move .closed, (hopen.trans hscan).trans hclose, rfl, hall⟩

/-- What the reader knows after the fields `vs`, which are written as `w`: their last one is the current one. -/
structure Took.All (p q : Progress) (w : List Char) (vs : List String) : Prop where
  place : q.place ≠ .quoted
  values : (q.value :: q.fields).reverse = p.fields.reverse ++ vs
  touched : q.touched = true ↔ p.touched = true ∨ w ≠ []
  startLine : q.startLine = p.startLine
  line : q.line = p.line + lineBreaks w

/-- A field is read. -/
theorem scan_field {v : String} (done : List Record) (h : FieldText w v) (hp : p.place = .start) (hf : p.field = [])
    (rest : List Char) :
    ∃ q, scan done p (w ++ rest) = scan done q rest ∧ Took.All p q w [v] := by
  have hvalues : ∀ {q : Progress} {x : List Char}, Took p q w x →
      (q.value :: q.fields).reverse = p.fields.reverse ++ [String.ofList x] := by
    intro q x took
    rw [Progress.value, took.field, took.fields, hf, List.append_nil, List.reverse_reverse, List.reverse_cons]
  cases h with
  | bare plain =>
    obtain ⟨q, hscan, hq, took⟩ := scan_bare done plain (.inl hp) rest
    have hplace : q.place ≠ .quoted := by
      rw [hq]
      split
      · rw [hp]
        decide
      · decide
    exact ⟨q, hscan, hplace, hvalues took, took.touched, took.startLine, took.line⟩
  | quoted v =>
    obtain ⟨q, hscan, hq, took⟩ := scan_quoted done hp v rest
    rw [List.append_assoc]
    exact ⟨q, hscan, by rw [hq]; decide, hvalues took, took.touched, took.startLine, took.line⟩

/-- No piece of a text that the grammar allows begins with a line feed. -/
theorem FieldText.head_ne {v : String} (h : FieldText w v) : w.head? ≠ some '\n' := by
  cases h with
  | bare plain =>
    intro hc
    obtain ⟨cs, rfl⟩ := List.head?_eq_some_iff.mp hc
    exact (plain _ List.mem_cons_self).2.2.1 rfl
  | quoted v => exact fun hc => absurd (Option.some.inj hc) (by decide)

theorem RecordText.head_ne (h : RecordText w vs) : w.head? ≠ some '\n' := by
  cases h with
  | one field => exact field.head_ne
  | @more w _ _ _ field _ =>
    cases w with
    | nil => exact fun hc => absurd (Option.some.inj hc) (by decide)
    | cons => exact field.head_ne

/-- A record is read. -/
theorem scan_record (done : List Record) (h : RecordText w vs) (hp : p.place = .start) (hf : p.field = [])
    (rest : List Char) :
    ∃ q, scan done p (w ++ rest) = scan done q rest ∧ Took.All p q w vs := by
  induction h generalizing p with
  | one field => exact scan_field done field hp hf rest
  | @more w ws v vs field fields ih =>
    obtain ⟨q, hscan, took⟩ := scan_field done field hp hf (',' :: (ws ++ rest))
    obtain ⟨r, hmore, tookMore⟩ := ih (p := q.comma) rfl rfl
    refine ⟨r, ?_, tookMore.place, ?_, ?_, tookMore.startLine.trans took.startLine, ?_⟩
    · rw [List.append_assoc, List.cons_append, hscan, scan_comma took.place, hmore]
    · rw [tookMore.values]
      show (q.value :: q.fields).reverse ++ vs = _
      rw [took.values, List.append_assoc]
      rfl
    · rw [tookMore.touched]
      exact iff_of_true (.inl rfl) (.inr (by simp))
    · have hcomma : lineBreaks (',' :: ws) = lineBreaks ws := by
        unfold lineBreaks
        rw [feeds_cons fun hc => absurd hc (by decide)]
        rfl
      have hwidth : lineBreaks (w ++ ',' :: ws) = lineBreaks w + lineBreaks ws := by
        rw [lineBreaks_append (seam_of_not_feed fun c hc => by cases hc; decide), hcomma]
      rw [tookMore.line, hwidth, ← Nat.add_assoc]
      exact congrArg (· + lineBreaks ws) took.line

/-! ## A text of the grammar is read -/

/-- No piece of a text that the grammar allows ends with a line break. -/
theorem FieldText.getLast_ne {v : String} (h : FieldText w v) : ∀ c ∈ w.getLast?, c ≠ '\n' ∧ c ≠ '\r' := by
  intro c hc
  cases h with
  | bare plain => exact (plain c (List.mem_of_getLast? hc)).2.2
  | quoted v =>
    rw [List.getLast?_append] at hc
    cases hc
    decide

theorem RecordText.getLast_ne (h : RecordText w vs) : ∀ c ∈ w.getLast?, c ≠ '\n' ∧ c ≠ '\r' := by
  induction h with
  | one field => exact field.getLast_ne
  | @more w ws _ _ _ _ ih =>
    intro c hc
    rw [List.getLast?_append, List.getLast?_cons] at hc
    cases hlast : ws.getLast? with
    | none =>
      rw [hlast] at hc
      cases hc
      decide
    | some d =>
      rw [hlast] at hc
      cases hc
      exact ih d hlast

theorem RecordText.seam_right (h : RecordText w vs) (hbefore : Seam before (w ++ rest)) : Seam (before ++ w) rest := by
  intro hlast
  rw [List.getLast?_append] at hlast
  cases hw : w.getLast? with
  | some c =>
    rw [hw] at hlast
    exact absurd (Option.some.inj hlast) (h.getLast_ne c hw).2
  | none =>
    rw [hw] at hlast
    have hnil : w = [] := List.getLast?_eq_none_iff.mp hw
    rw [hnil] at hbefore
    exact hbefore hlast

/-- The last character of a record is on the line that the reader has reached. -/
theorem RecordText.kept_eq (h : RecordText w vs) (hw : w ≠ []) (before : List Char) :
    kept before w vs = [⟨vs, 1 + lineBreaks before, 1 + lineBreaks before + lineBreaks w⟩] := by
  obtain ⟨front, l, rfl⟩ : ∃ front l, w = front ++ [l] := ⟨_, _, (List.dropLast_concat_getLast hw).symm⟩
  obtain ⟨hfeed, hreturn⟩ := h.getLast_ne l List.getLast?_concat
  have hlast : lineBreaks (front ++ [l]) = lineBreaks front := by
    rw [lineBreaks_append (seam_of_not_feed fun c hc => by cases hc; exact hfeed), lineBreaks_singleton hfeed hreturn]
    rfl
  have hseam : Seam before front := fun _ hd => h.head_ne (by rw [List.head?_append, hd]; rfl)
  rw [kept, if_neg hw, List.dropLast_concat, lineBreaks_append hseam, hlast, Nat.add_assoc]

/-- The reader closes a record with what the grammar keeps of it. -/
theorem Took.All.close_eq (took : Took.All (.begin (1 + lineBreaks before) text) q w vs) (done : List Record)
    (h : RecordText w vs) (hseam : Seam before w) :
    (q.close done).reverse = done.reverse ++ kept before w vs ∧ q.line = 1 + lineBreaks (before ++ w) := by
  have hline : q.line = 1 + lineBreaks before + lineBreaks w := took.line
  refine ⟨?_, by rw [hline, lineBreaks_append hseam, Nat.add_assoc]⟩
  unfold Progress.close
  by_cases hw : w = []
  · have hnot : ¬ q.touched = true := fun ht => (took.touched.mp ht).elim (fun hf => Bool.noConfusion hf) fun hne => hne hw
    rw [if_neg hnot, kept, if_pos hw, List.append_nil]
  · have hvalues : (q.value :: q.fields).reverse = vs := took.values
    have hstart : q.startLine = 1 + lineBreaks before := took.startLine
    rw [if_pos (took.touched.mpr (.inr hw)), h.kept_eq hw, List.reverse_cons, Progress.record, hvalues, hstart, hline]

/-- A text of the grammar is read as its records.  Where the carriage return of a line break is already read, the line
    feed behind it is left for the next record, which is empty then. -/
theorem scan_reads (h : Reads before text rs) (done : List Record) :
    (Seam before text → scan done (.begin (1 + lineBreaks before) text) text = .ok (done.reverse ++ rs))
      ∧ ∀ cs, text = '\n' :: cs →
        scan done (.begin (1 + lineBreaks (before ++ ['\n'])) cs) cs = .ok (done.reverse ++ rs) := by
  induction h generalizing done with
  | @last before w vs record =>
    constructor
    · intro hseam
      obtain ⟨q, hscan, took⟩ := scan_record (p := .begin (1 + lineBreaks before) w) done record rfl rfl []
      rw [List.append_nil] at hscan
      rw [hscan, scan_end took.place, (took.close_eq done record hseam).1]
    · rintro cs rfl
      exact absurd rfl record.head_ne
  | @more before w b text vs rs record ends _ ih =>
    constructor
    · intro hseam
      rw [List.append_assoc] at hseam ⊢
      obtain ⟨q, hscan, took⟩ :=
        scan_record (p := .begin (1 + lineBreaks before) (w ++ (b ++ text))) done record rfl rfl (b ++ text)
      have hw : Seam before w := fun hlast hd => hseam hlast (by rw [List.head?_append, hd]; rfl)
      obtain ⟨hclose, hline⟩ := took.close_eq done record hw
      have hjoined : Seam (before ++ w) (b ++ text) := record.seam_right hseam
      have hb : Seam (before ++ w) b := fun hlast hd => hjoined hlast (by rw [List.head?_append, hd]; rfl)
      rw [hscan, ← List.append_assoc, ← hclose]
      by_cases hsplit : b = ['\r'] ∧ text.head? = some '\n'
      · obtain ⟨rfl, hhead⟩ := hsplit
        obtain ⟨cs, rfl⟩ := List.head?_eq_some_iff.mp hhead
        have hbreak : Break ['\r', '\n'] := .inr (.inr rfl)
        have hwidth : q.line + 1 = 1 + lineBreaks (before ++ w ++ ['\r'] ++ ['\n']) := by
          have hseam' : Seam (before ++ w) ['\r', '\n'] := fun _ hd => absurd (Option.some.inj hd) (by decide)
          rw [List.append_assoc (before ++ w), hline, List.singleton_append, lineBreaks_append hseam',
            lineBreaks_break hbreak, Nat.add_assoc]
        show scan done q (['\r', '\n'] ++ cs) = _
        rw [scan_break hbreak fun hd => (nomatch hd), if_neg took.place, hwidth]
        exact (ih _).2 cs rfl
      · have hmunch : b = ['\r'] → text.head? ≠ some '\n' := fun hr hd => hsplit ⟨hr, hd⟩
        have hwidth : q.line + 1 = 1 + lineBreaks (before ++ w ++ b) := by
          rw [hline, lineBreaks_append hb, lineBreaks_break ends, Nat.add_assoc]
        rw [scan_break ends hmunch, if_neg took.place, hwidth]
        refine (ih _).1 fun hlast => hmunch ?_
        obtain rfl | rfl | rfl := ends
        · rw [List.getLast?_concat] at hlast
          exact absurd (Option.some.inj hlast) (by decide)
        · rfl
        · rw [List.getLast?_append] at hlast
          exact absurd (Option.some.inj hlast) (by decide)
    · -- nothing is in front of the line feed, and nothing else ends the record
      intro cs heq
      have hw : w = [] := by
        cases w with
        | nil => rfl
        | cons c w =>
          cases heq
          exact absurd rfl record.head_ne
      subst hw
      obtain rfl | rfl | rfl := ends
      · obtain rfl := List.cons.inj heq |>.2
        have hlast : Seam (before ++ [] ++ ['\n']) text := fun hlast => by
          rw [List.getLast?_concat] at hlast
          exact absurd (Option.some.inj hlast) (by decide)
        have hread := (ih done).1 hlast
        rw [List.append_nil] at hread
        exact hread
      · exact absurd (List.cons.inj heq).1 (by decide)
      · exact absurd (List.cons.inj heq).1 (by decide)

/-! ## Every other text is refused -/

/-- No record of a text can be read. -/
def Refused (cs : List Char) : Prop :=
  ∀ (done : List Record) (p : Progress), p.place = .start → p.field = [] → ∃ e, scan done p cs = .error e

instance (c : Char) : Decidable (Bare c) := inferInstanceAs (Decidable (_ ∧ _))

/-- What is behind an opening quotation mark goes up to the next one that stands alone. -/
theorem cut_double : ∀ cs : List Char,
    (∃ v, cs = double v) ∨ ∃ v rest, cs = double v ++ '"' :: rest ∧ rest.head? ≠ some '"'
  | [] => .inl ⟨[], rfl⟩
  | c :: cs => by
    by_cases hc : c = '"'
    · subst hc
      rcases cs with _ | ⟨d, ds⟩
      · exact .inr ⟨[], [], rfl, fun hd => nomatch hd⟩
      · by_cases hd : d = '"'
        · subst hd
          obtain ⟨v, rfl⟩ | ⟨v, rest, rfl, hrest⟩ := cut_double ds
          · exact .inl ⟨'"' :: v, rfl⟩
          · exact .inr ⟨'"' :: v, rest, rfl, hrest⟩
        · exact .inr ⟨[], d :: ds, rfl, fun heq => hd (Option.some.inj heq)⟩
    · have hdouble : ∀ v, double (c :: v) = c :: double v := fun v => by
        unfold double
        rw [List.flatMap_cons, if_neg hc]
        rfl
      obtain ⟨v, rfl⟩ | ⟨v, rest, rfl, hrest⟩ := cut_double cs
      · exact .inl ⟨c :: v, (hdouble v).symm⟩
      · exact .inr ⟨c :: v, rest, by rw [hdouble]; rfl, hrest⟩

/-- A text begins with the longest bare field. -/
theorem cut_bare (cs : List Char) :
    ∃ w rest, cs = w ++ rest ∧ (∀ c ∈ w, Bare c) ∧ ∀ c ∈ rest.head?, ¬ Bare c := by
  induction cs with
  | nil => exact ⟨[], [], rfl, List.forall_mem_nil _, fun _ hc => nomatch hc⟩
  | cons c cs ih =>
    by_cases hc : Bare c
    · obtain ⟨w, rest, rfl, plain, hrest⟩ := ih
      exact ⟨c :: w, rest, rfl, List.forall_mem_cons.mpr ⟨hc, plain⟩, hrest⟩
    · refine ⟨[], c :: cs, rfl, List.forall_mem_nil _, fun d hd => ?_⟩
      cases hd
      exact hc

/-- A text begins with a field, behind which the next one or the end of the record is, or it is refused. -/
theorem cut_field (cs : List Char) :
    (∃ w v rest, cs = w ++ rest ∧ FieldText w v ∧ ∀ c ∈ rest.head?, c = ',' ∨ c = '\n' ∨ c = '\r') ∨ Refused cs := by
  by_cases hquote : cs.head? = some '"'
  · obtain ⟨cs, rfl⟩ := List.head?_eq_some_iff.mp hquote
    obtain ⟨v, rfl⟩ | ⟨v, rest, rfl, hrest⟩ := cut_double cs
    · -- the text ends between quotation marks
      refine .inr fun done p hp _ => ?_
      have hopen : scan done p ('"' :: double v) = scan done (p.move .quoted) (double v) := by
        rw [scan_char (by decide) (by decide), hp]
        rfl
      obtain ⟨q, hscan, hq, -⟩ := scan_double done (p := p.move .quoted) [] rfl rfl (fun _ hc => nomatch hc) v
      rw [List.append_nil] at hscan
      exact ⟨_, by rw [hopen, hscan, scan, if_pos hq]⟩
    · by_cases hends : ∃ c ∈ rest.head?, ¬ (c = ',' ∨ c = '\n' ∨ c = '\r')
      · -- something is behind the closing quotation mark
        obtain ⟨c, hc, hnot⟩ := hends
        obtain ⟨hcomma, hbreak⟩ := not_or.mp hnot
        obtain ⟨hfeed, hreturn⟩ := not_or.mp hbreak
        obtain ⟨ds, rfl⟩ := List.head?_eq_some_iff.mp hc
        have hcquote : c ≠ '"' := fun heq => hrest (congrArg some heq)
        refine .inr fun done p hp _ => ?_
        obtain ⟨q, hscan, hq, -⟩ := scan_quoted done hp v (c :: ds)
        rw [List.cons_append] at hscan
        rw [scan_char hfeed hreturn (p := q), hq] at hscan
        dsimp only at hscan
        rw [if_neg hcquote, if_neg hcomma] at hscan
        exact ⟨_, hscan⟩
      · refine .inl ⟨'"' :: double v ++ ['"'], _, rest, by simp, .quoted v, fun c hc => ?_⟩
        exact Decidable.byContradiction fun hnot => hends ⟨c, hc, hnot⟩
  · obtain ⟨w, rest, rfl, plain, hnot⟩ := cut_bare cs
    rcases rest with _ | ⟨c, ds⟩
    · exact .inl ⟨w, _, [], rfl, .bare plain, fun _ hc => nomatch hc⟩
    · have hc : ¬ Bare c := hnot c rfl
      by_cases hends : c = ',' ∨ c = '\n' ∨ c = '\r'
      · exact .inl ⟨w, _, c :: ds, rfl, .bare plain, fun d hd => by cases hd; exact hends⟩
      · -- a quotation mark is behind characters of a bare field
        obtain ⟨hcomma, hbreak⟩ := not_or.mp hends
        have hcquote : c = '"' := Decidable.byContradiction fun hne => hc ⟨hne, hcomma, not_or.mp hbreak⟩
        subst hcquote
        have hw : w ≠ [] := fun hnil => hquote (by rw [hnil]; rfl)
        refine .inr fun done p hp _ => ?_
        obtain ⟨q, hscan, hq, -⟩ := scan_bare done plain (.inl hp) ('"' :: ds)
        rw [scan_char (by decide) (by decide) (p := q), hq, if_neg hw] at hscan
        exact ⟨_, hscan⟩

/-- A text begins with a record, behind which a line break or the end of the text is, or it is refused. -/
theorem cut_record (cs : List Char) :
    (∃ w vs rest, cs = w ++ rest ∧ RecordText w vs ∧ ∀ c ∈ rest.head?, c = '\n' ∨ c = '\r') ∨ Refused cs := by
  obtain ⟨w, v, rest, hcs, field, hends⟩ | hrefused := cut_field cs
  · by_cases hcomma : rest.head? = some ','
    · obtain ⟨ds, rfl⟩ := List.head?_eq_some_iff.mp hcomma
      have hshorter : ds.length < cs.length := by
        rw [hcs, List.length_append, List.length_cons]
        omega
      obtain ⟨ws, vs, rest, rfl, fields, hmore⟩ | hrefused := cut_record ds
      · exact .inl ⟨w ++ ',' :: ws, v :: vs, rest, by rw [hcs]; simp, .more field fields, hmore⟩
      · refine .inr fun done p hp hf => ?_
        obtain ⟨q, hscan, took⟩ := scan_field done field hp hf (',' :: ds)
        obtain ⟨e, he⟩ := hrefused done q.comma rfl rfl
        exact ⟨e, by rw [hcs, hscan, scan_comma took.place, he]⟩
    · exact .inl ⟨w, [v], rest, hcs, .one field, fun c hc => (hends c hc).resolve_left fun heq => hcomma (heq ▸ hc)⟩
  · exact .inr hrefused
termination_by cs.length

/-- Every text is one of the grammar, or it is refused. -/
theorem reads_or_refused (cs before : List Char) : (∃ rs, Reads before cs rs) ∨ Refused cs := by
  obtain ⟨w, vs, rest, hcs, record, hends⟩ | hrefused := cut_record cs
  · cases hrest : rest with
    | nil =>
      rw [hcs, hrest, List.append_nil]
      exact .inl ⟨_, .last record⟩
    | cons c ds =>
      -- the longest line break that the rest begins with
      obtain ⟨b, text, hbreak, hcut, hmunch⟩ :
          ∃ b text, Break b ∧ c :: ds = b ++ text ∧ (b = ['\r'] → text.head? ≠ some '\n') := by
        obtain rfl | rfl := hends c (by rw [hrest]; rfl)
        · exact ⟨['\n'], ds, .inl rfl, rfl, fun heq => nomatch heq⟩
        · by_cases hfeed : ds.head? = some '\n'
          · obtain ⟨es, rfl⟩ := List.head?_eq_some_iff.mp hfeed
            exact ⟨['\r', '\n'], es, .inr (.inr rfl), rfl, fun heq => nomatch heq⟩
          · exact ⟨['\r'], ds, .inr (.inl rfl), rfl, fun _ => hfeed⟩
      have hshorter : text.length < cs.length := by
        have hb : b.length ≠ 0 := by obtain rfl | rfl | rfl := hbreak <;> decide
        rw [hcs, hrest, hcut, List.length_append, List.length_append]
        omega
      obtain ⟨rs, reads⟩ | hrefused := reads_or_refused text (before ++ w ++ b)
      · refine .inl ⟨kept before w vs ++ rs, ?_⟩
        rw [hcs, hrest, hcut, ← List.append_assoc]
        exact .more record hbreak reads
      · refine .inr fun done p hp hf => ?_
        obtain ⟨q, hscan, took⟩ := scan_record done record hp hf (b ++ text)
        obtain ⟨e, he⟩ := hrefused (q.close done) (.begin (q.line + 1) text) rfl rfl
        exact ⟨e, by rw [hcs, hrest, hcut, hscan, scan_break hbreak hmunch, if_neg took.place, he]⟩
  · exact .inr hrefused
termination_by cs.length

/-- The reader makes of a text the records that it consists of, and nothing of any other text. -/
theorem records_iff_reads (text : String) (rs : List Record) : records text = .ok rs ↔ Reads [] text.toList rs := by
  have hread : ∀ {rs}, Reads [] text.toList rs → records text = .ok rs := fun h =>
    (scan_reads h []).1 fun hlast => nomatch hlast
  refine ⟨fun h => ?_, hread⟩
  obtain ⟨rs', reads⟩ | hrefused := reads_or_refused text.toList []
  · have heq : Except.ok rs' = Except.ok rs := (hread reads).symm.trans h
    cases heq
    exact reads
  · obtain ⟨e, he⟩ := hrefused [] (.begin 1 text.toList) rfl rfl
    exact absurd (he.symm.trans h) (fun heq => nomatch heq)

/-! ## Lines -/

/-- The line breaks of a text stay when it goes on. -/
theorem feeds_prefix_append (w rest : List Char) : feeds w <+: feeds (w ++ rest) := by
  induction w using feeds.induct with
  | case1 => exact List.nil_prefix
  | case2 cs ih => exact List.cons_prefix_cons.mpr ⟨rfl, ih⟩
  | case3 c cs hfeed ih =>
    have hcs : c = '\r' → cs.head? ≠ some '\n' := by
      intro hc hd
      obtain ⟨ds, rfl⟩ := List.head?_eq_some_iff.mp hd
      exact hfeed ds hc rfl
    rw [feeds_cons hcs]
    by_cases hsplit : c = '\r' ∧ (cs ++ rest).head? = some '\n'
    · -- the carriage return is the last character
      obtain ⟨rfl, hhead⟩ := hsplit
      obtain rfl : cs = [] := by
        cases cs with
        | nil => rfl
        | cons d ds => exact absurd hhead (hcs rfl)
      obtain ⟨ds, rfl⟩ := List.head?_eq_some_iff.mp hhead
      exact List.cons_prefix_cons.mpr ⟨rfl, List.nil_prefix⟩
    · rw [List.cons_append, feeds_cons fun hc hd => hsplit ⟨hc, hd⟩]
      exact List.cons_prefix_cons.mpr ⟨rfl, ih⟩

theorem lineBreaks_le (w rest : List Char) : lineBreaks w ≤ lineBreaks (w ++ rest) :=
  (feeds_prefix_append w rest).sublist.count_le '\n'

/-- The records behind `before` are on the lines behind it, each one behind the one before. -/
theorem Reads.lines (h : Reads before text rs) :
    (∀ r ∈ rs, 1 + lineBreaks before ≤ r.startLine ∧ r.startLine ≤ r.endLine)
      ∧ rs.Pairwise fun r s => r.endLine < s.startLine := by
  have hkept : ∀ (before w : List Char) (vs : List String), ∀ r ∈ kept before w vs,
      r.startLine = 1 + lineBreaks before ∧ r.endLine = 1 + lineBreaks (before ++ w.dropLast) ∧ w ≠ [] := by
    intro before w vs r hr
    unfold kept at hr
    split at hr
    · cases hr
    · rename_i hw
      cases List.mem_singleton.mp hr
      exact ⟨rfl, rfl, hw⟩
  have hone : ∀ (before w : List Char) (vs : List String),
      (kept before w vs).Pairwise fun r s => r.endLine < s.startLine := by
    intro before w vs
    unfold kept
    split
    · exact .nil
    · exact List.pairwise_singleton _ _
  have hfirst : ∀ (before w : List Char) (vs : List String), ∀ r ∈ kept before w vs,
      1 + lineBreaks before ≤ r.startLine ∧ r.startLine ≤ r.endLine := by
    intro before w vs r hr
    obtain ⟨hstart, hend, -⟩ := hkept before w vs r hr
    rw [hstart, hend]
    exact ⟨Nat.le_refl _, Nat.add_le_add_left (lineBreaks_le _ _) 1⟩
  induction h with
  | last record => exact ⟨hfirst _ _ _, hone _ _ _⟩
  | @more before w b text vs rs record ends _ ih =>
    obtain ⟨hlines, hpairs⟩ := ih
    have hbefore : lineBreaks before ≤ lineBreaks (before ++ w ++ b) := by
      rw [List.append_assoc]
      exact lineBreaks_le _ _
    refine ⟨fun r hr => ?_, List.pairwise_append.mpr ⟨hone _ _ _, hpairs, fun r hr s hs => ?_⟩⟩
    · obtain hr | hr := List.mem_append.mp hr
      · exact hfirst before w vs r hr
      · have hline := hlines r hr
        omega
    · obtain ⟨-, hend, hw⟩ := hkept before w vs r hr
      -- a record does not end with a line break, so the one behind it is a new one
      have hseam : Seam (before ++ w) b := by
        refine record.seam_right fun _ hd => ?_
        cases w with
        | nil => exact hw rfl
        | cons => exact record.head_ne hd
      have hfront : lineBreaks (before ++ w.dropLast) ≤ lineBreaks (before ++ w) := by
        have hsplit : before ++ w = before ++ w.dropLast ++ [w.getLast hw] := by
          rw [List.append_assoc, List.dropLast_concat_getLast]
        rw [hsplit]
        exact lineBreaks_le _ _
      have hbreak : lineBreaks (before ++ w ++ b) = lineBreaks (before ++ w) + 1 := by
        rw [lineBreaks_append hseam, lineBreaks_break ends]
      have hline := (hlines s hs).1
      omega

/-! ## Writing -/

/-- A field between quotation marks. -/
def quotedField (v : String) : List Char := '"' :: double v.toList ++ ['"']

/-- A record whose fields are all between quotation marks. -/
def writtenRecord (vs : List String) : List Char := [','].intercalate (vs.map quotedField)

/-- Records with the line break `eol` between them, and behind the last one if it is `ended`. -/
def written (eol : List Char) (ended : Bool) (rows : List (List String)) : List Char :=
  eol.intercalate (rows.map writtenRecord) ++ if ended then eol else []

theorem quotedField_text {v : String} (h : '\r' ∉ v.toList) : FieldText (quotedField v) v := by
  have hquoted := FieldText.quoted v.toList
  rwa [feeds_of_not_mem h, String.ofList_toList] at hquoted

theorem writtenRecord_text (hvs : vs ≠ []) (h : ∀ v ∈ vs, '\r' ∉ v.toList) :
    RecordText (writtenRecord vs) vs ∧ writtenRecord vs ≠ [] := by
  induction vs with
  | nil => exact absurd rfl hvs
  | cons v vs ih =>
    obtain ⟨hv, hvs⟩ := List.forall_mem_cons.mp h
    have hfield := quotedField_text hv
    unfold writtenRecord
    cases vs with
    | nil =>
      rw [List.map_singleton, List.intercalate_singleton]
      exact ⟨.one hfield, List.cons_ne_nil _ _⟩
    | cons u us =>
      rw [List.map_cons, List.map_cons, List.intercalate_cons_cons, List.append_assoc]
      exact ⟨.more hfield (ih (List.cons_ne_nil u us) hvs).1, List.cons_ne_nil _ _⟩

theorem fields_kept (hw : w ≠ []) (before : List Char) (vs : List String) :
    (kept before w vs).map Record.fields = [vs] := by
  rw [kept, if_neg hw, List.map_singleton]

/-- Records that have been written are a text of the grammar. -/
theorem reads_written {rows : List (List String)} (h : ∀ vs ∈ rows, vs ≠ [] ∧ ∀ v ∈ vs, '\r' ∉ v.toList) {eol : List Char}
    (heol : Break eol) (ended : Bool) (before : List Char) :
    ∃ rs, Reads before (written eol ended rows) rs ∧ rs.map Record.fields = rows := by
  have hnone : ∀ before, Reads before [] [] := fun before => .last (.one (.bare (List.forall_mem_nil _)))
  induction rows generalizing before with
  | nil =>
    cases ended with
    | true =>
      have hread : Reads before ([] ++ eol ++ []) _ := .more (.one (.bare (List.forall_mem_nil _))) heol (hnone _)
      rw [List.append_nil] at hread
      exact ⟨[], hread, rfl⟩
    | false => exact ⟨[], hnone before, rfl⟩
  | cons vs rows ih =>
    obtain ⟨⟨hvs, hplain⟩, hrows⟩ := List.forall_mem_cons.mp h
    obtain ⟨record, hw⟩ := writtenRecord_text hvs hplain
    have hfields := fields_kept hw before vs
    cases rows with
    | nil =>
      unfold written
      rw [List.map_singleton, List.intercalate_singleton]
      cases ended with
      | true =>
        refine ⟨kept before (writtenRecord vs) vs ++ [], ?_, by rw [List.append_nil, hfields]⟩
        have hread : Reads before (writtenRecord vs ++ eol ++ []) _ := .more record heol (hnone _)
        rwa [List.append_nil] at hread
      | false =>
        rw [if_neg Bool.false_ne_true, List.append_nil]
        exact ⟨_, .last record, hfields⟩
    | cons us more =>
      obtain ⟨rs, reads, hrs⟩ := ih hrows (before ++ writtenRecord vs ++ eol)
      refine ⟨kept before (writtenRecord vs) vs ++ rs, ?_, by rw [List.map_append, hfields, hrs]; rfl⟩
      unfold written at reads ⊢
      rw [List.map_cons, List.map_cons, List.intercalate_cons_cons, List.append_assoc]
      exact .more record heol reads

/-- A text is read exactly if it is records of the grammar, and as those records; each one is on lines behind those of
    the one before; and records whose fields are all written between quotation marks are read back. -/
theorem records_iff (text : String) :
    (∀ rs, records text = .ok rs ↔ Reads [] text.toList rs)
      ∧ (∀ rs, records text = .ok rs →
        (∀ r ∈ rs, r.startLine ≤ r.endLine) ∧ rs.Pairwise fun r s => r.endLine < s.startLine)
      ∧ ∀ (rows : List (List String)) (eol : List Char) (ended : Bool), Break eol →
        (∀ vs ∈ rows, vs ≠ [] ∧ ∀ v ∈ vs, '\r' ∉ v.toList) → text.toList = written eol ended rows →
          ∃ rs, records text = .ok rs ∧ rs.map Record.fields = rows := by
  refine ⟨records_iff_reads text, fun rs h => ?_, fun rows eol ended heol h htext => ?_⟩
  · obtain ⟨hlines, hpairs⟩ := ((records_iff_reads text rs).mp h).lines
    exact ⟨fun r hr => (hlines r hr).2, hpairs⟩
  · obtain ⟨rs, reads, hrows⟩ := reads_written h heol ended []
    rw [← htext] at reads
    exact ⟨rs, (records_iff_reads text rs).mpr reads, hrows⟩

/-- A record with a line break in a field, and one of a field without characters. -/
theorem records_iff_lines :
    let text := "\"a\",\"b\"\"\nc\"\r\n\"\"\r\n"
    let rs : List Record := [⟨["a", "b\"\nc"], 1, 2⟩, ⟨[""], 3, 3⟩]
    records text = .ok rs ∧ Reads [] text.toList rs
      ∧ ((∀ r ∈ rs, r.startLine ≤ r.endLine) ∧ rs.Pairwise fun r s => r.endLine < s.startLine)
      ∧ text.toList = written ['\r', '\n'] true [["a", "b\"\nc"], [""]]
      ∧ ∃ rs, records text = .ok rs ∧ rs.map Record.fields = [["a", "b\"\nc"], [""]] := by
  intro text rs
  have hread : records text = .ok rs := by
    have hsome : (records text).toOption = some rs := by decide +kernel
    cases h : records text with
    | error e =>
      rw [h] at hsome
      cases hsome
    | ok =>
      rw [h] at hsome
      exact congrArg Except.ok (Option.some.inj hsome)
  obtain ⟨hgrammar, hlines, hwritten⟩ := records_iff text
  have htext : text.toList = written ['\r', '\n'] true [["a", "b\"\nc"], [""]] := by decide +kernel
  exact ⟨hread, (hgrammar rs).mp hread, hlines rs hread, htext, hwritten _ _ true (.inr (.inr rfl)) (by decide +kernel) htext⟩

end Stencil.Csv
