import SimpleLR.Proofs.ReadGrammar
/-!
# Which texts read, and the fault reported for the others

A rule line is checked in a fixed order: an arrow, no second arrow, something before the arrow,
a single name before it, a name other than `ε`, no `$` anywhere, and `ε` alone in its
alternative. Here each check is stated on its own, as the column at which a line fails it
(`LineFault.check`), and the reader of a line reports the first check that fails
(`RuleLine.read_eq_error_iff`); a line passes every check exactly when its tokens have the shape
of a rule (`firstFault_eq_none_iff`).

A text is refused as empty exactly when it is blank once its leading byte-order marks are
dropped; otherwise it is read exactly when each of its lines that is not blank has the shape of
a rule, and refused at the first line that does not, with that line's first fault. No other
outcome is possible: a text that is not blank has a line that is not blank.

The main statement, `read_reports_first_fault`.
-/

namespace SimpleLR

open SimpleLR.Text

/-! ## The parts of a rule line -/

namespace RuleLine

/-- The arrows among the tokens of a line. -/
def arrows (toks : List Token) : List Token := toks.filter (·.kind = .arrow)

/-- The tokens before the first arrow. -/
def lhsTokens (toks : List Token) : List Token := toks.takeWhile (·.kind ≠ .arrow)

/-- The tokens after the first arrow. -/
def rhsTokens (toks : List Token) : List Token := (toks.dropWhile (·.kind ≠ .arrow)).drop 1

/-- Whether the tokens of an alternative hold `ε` beside another token. -/
def mixesEpsilon (ts : List Token) : Bool := ts.any (·.text == epsilon) && 1 < ts.length

/-- The column of the first `ε` of the first alternative that holds `ε` beside another token. -/
def epsilonColumn (gs : List (List Token)) : Option Nat :=
  (gs.find? mixesEpsilon).bind fun g => (g.find? (·.text == epsilon)).map (·.column)

theorem names_empty_or_epsilon_iff {ts : List Token} {t : Token} (ht : t ∈ ts) (hε : t.text = epsilon) :
    (ts.map (·.text) = [] ∨ ts.map (·.text) = [epsilon]) ↔ ts.length ≤ 1 := by
  constructor
  · rintro (h | h)
    · simp [List.map_eq_nil_iff.1 h]
    · have := congrArg List.length h
      simp only [List.length_map, List.length_singleton] at this
      omega
  · intro hlen
    obtain ⟨u, rfl⟩ : ∃ u, ts = [u] := by
      match ts, hlen, ht with
      | [u], _, _ => exact ⟨u, rfl⟩
    rw [← List.mem_singleton.1 ht]
    simp [hε]

theorem alternative_eq_error_iff {ts : List Token} {c : Nat} :
    alternative ts = .error c ↔
      mixesEpsilon ts = true ∧ (ts.find? (·.text == epsilon)).map (·.column) = some c := by
  cases hf : ts.find? (·.text == epsilon) with
  | none =>
    simp only [alternative, hf, Option.map_none, reduceCtorEq, and_false, iff_false]
    split <;> simp
  | some t =>
    have ht := List.mem_of_find?_eq_some hf
    have hε : t.text = epsilon := by simpa using List.find?_some hf
    have hany : ts.any (·.text == epsilon) = true := List.any_eq_true.2 ⟨t, ht, by simp [hε]⟩
    simp only [alternative, hf, names_empty_or_epsilon_iff ht hε, mixesEpsilon, hany, Bool.true_and,
      decide_eq_true_eq, Option.map_some, Option.some.injEq]
    split
    · simp only [reduceCtorEq, false_iff, not_and]
      omega
    · simp only [Except.error.injEq]
      omega

theorem exists_find?_epsilon {ts : List Token} (h : mixesEpsilon ts = true) :
    ∃ t, ts.find? (·.text == epsilon) = some t := by
  simp only [mixesEpsilon, Bool.and_eq_true] at h
  exact Option.isSome_iff_exists.1 (List.find?_isSome.2 (List.any_eq_true.1 h.1))

theorem mixesEpsilon_eq_false_iff {ts : List Token} :
    mixesEpsilon ts = false ↔ ∀ t ∈ ts, t.text = epsilon → ts = [t] := by
  constructor
  · intro h t ht hε
    have hlen : ts.length ≤ 1 := by
      simp only [mixesEpsilon, Bool.and_eq_false_iff, List.any_eq_false, decide_eq_false_iff_not,
        Nat.not_lt] at h
      rcases h with hnone | hlen
      · exact absurd (by simp [hε]) (hnone t ht)
      · exact hlen
    match ts, hlen, ht with
    | [u], _, ht => rw [List.mem_singleton.1 ht]
  · intro h
    cases hmix : mixesEpsilon ts with
    | false => rfl
    | true =>
      obtain ⟨t, ht⟩ := exists_find?_epsilon hmix
      have hts := h t (List.mem_of_find?_eq_some ht) (by simpa using List.find?_some ht)
      simp [mixesEpsilon, hts] at hmix

theorem mixesEpsilon_eq_false_of_ok {ts : List Token} {a : List Symbol}
    (h : alternative ts = .ok a) : mixesEpsilon ts = false := by
  cases hmix : mixesEpsilon ts with
  | false => rfl
  | true =>
    obtain ⟨t, ht⟩ := exists_find?_epsilon hmix
    have herr : alternative ts = .error t.column :=
      alternative_eq_error_iff.2 ⟨hmix, by rw [ht]; rfl⟩
    rw [herr] at h
    cases h

theorem epsilonColumn_cons (g : List Token) (gs : List (List Token)) :
    epsilonColumn (g :: gs) =
      if mixesEpsilon g then (g.find? (·.text == epsilon)).map (·.column) else epsilonColumn gs := by
  unfold epsilonColumn
  cases h : mixesEpsilon g <;> simp [h]

theorem epsilonColumn_eq_none_iff {gs : List (List Token)} :
    epsilonColumn gs = none ↔ ∀ g ∈ gs, mixesEpsilon g = false := by
  induction gs with
  | nil => simp [epsilonColumn]
  | cons g gs ih =>
    rw [epsilonColumn_cons]
    cases hmix : mixesEpsilon g with
    | false => simp [ih, hmix]
    | true =>
      obtain ⟨t, ht⟩ := exists_find?_epsilon hmix
      simp [ht, hmix]

theorem alternativesOf_eq_error_iff {gs : List (List Token)} {c : Nat} :
    alternativesOf gs = .error c ↔ epsilonColumn gs = some c := by
  induction gs with
  | nil => simp [alternativesOf, epsilonColumn]
  | cons g gs ih =>
    simp only [alternativesOf, bind, Except.bind, epsilonColumn_cons]
    cases hg : alternative g with
    | error c' =>
      obtain ⟨hmix, hcol⟩ := alternative_eq_error_iff.1 hg
      simp [hmix, hcol]
    | ok a =>
      simp only [mixesEpsilon_eq_false_of_ok hg, Bool.false_eq_true, if_false, ← ih]
      cases alternativesOf gs <;> simp [pure, Except.pure]

end RuleLine

open RuleLine

/-! ## The checks of a rule line -/

/-- The column at which a line fails a check, if it does. Each check is made on its own, as if
those before it had passed: a missing arrow is placed after the line's last character that is
not blank, and every other fault at the token that shows it. -/
def LineFault.check (line : List Char) : LineFault → Option Nat
  | .missingArrow =>
    if arrows (Token.scan line) = [] then some ((trimRight line).length + 1) else none
  | .extraArrow => (arrows (Token.scan line))[1]?.map (·.column)
  | .missingLhs =>
    if lhsTokens (Token.scan line) = [] then (arrows (Token.scan line)).head?.map (·.column)
    else none
  | .lhsNotSingle =>
    match lhsTokens (Token.scan line) with
    | _ :: t :: _ => some t.column
    | [t] => if t.kind = .name then none else some t.column
    | [] => none
  | .epsilonLhs =>
    match lhsTokens (Token.scan line) with
    | [t] => if t.text = epsilon then some t.column else none
    | _ => none
  | .reservedEnd => ((Token.scan line).find? (·.text == endMarker)).map (·.column)
  | .epsilonNotAlone => epsilonColumn (Token.groups (rhsTokens (Token.scan line)))

/-- The checks of a rule line, in the order they are made. -/
def LineFault.order : List LineFault :=
  [.missingArrow, .extraArrow, .missingLhs, .lhsNotSingle, .epsilonLhs, .reservedEnd,
    .epsilonNotAlone]

/-- The first check that a line fails, with its column. -/
def firstFault (line : List Char) : Option (LineFault × Nat) :=
  LineFault.order.findSome? fun f => (f.check line).map (f, ·)

/-- Reading a line fails exactly at its first fault. -/
theorem RuleLine.read_eq_error_iff {line : List Char} {e : LineFault × Nat} :
    RuleLine.read line = .error e ↔ firstFault line = some e := by
  simp only [firstFault, LineFault.order, List.findSome?_cons, List.findSome?_nil, LineFault.check]
  unfold RuleLine.read
  simp only [arrows, lhsTokens, rhsTokens]
  generalize Token.scan line = toks
  rcases harrows : toks.filter (·.kind = .arrow) with _ | ⟨a, _ | ⟨b, rest⟩⟩
  · simp only [harrows]
    simp [eq_comm]
  · simp only [harrows]
    rcases hlhs : toks.takeWhile (·.kind ≠ .arrow) with _ | ⟨t, _ | ⟨u, more⟩⟩ <;>
      simp only [hlhs]
    · simp [leftSide, bind, Except.bind, eq_comm]
    · by_cases hname : t.kind = .name
      · by_cases hε : t.text = epsilon
        · simp [leftSide, bind, Except.bind, hname, hε, eq_comm]
        · simp only [leftSide, hname, hε, bind, Except.bind]
          cases hend : toks.find? (·.text == endMarker) with
          | some u => simp [eq_comm]
          | none =>
            cases hcol : epsilonColumn
                (Token.groups ((toks.dropWhile (·.kind ≠ .arrow)).drop 1)) with
            | some c =>
              simp only [alternativesOf_eq_error_iff.2 hcol]
              simp [eq_comm]
            | none =>
              cases halts : alternativesOf
                  (Token.groups ((toks.dropWhile (·.kind ≠ .arrow)).drop 1)) with
              | error c =>
                have hsome := alternativesOf_eq_error_iff.1 halts
                rw [hcol] at hsome
                cases hsome
              | ok alts => simp [pure, Except.pure]
      · simp [leftSide, bind, Except.bind, hname, eq_comm]
    · simp [leftSide, bind, Except.bind, eq_comm]
  · simp only [harrows]
    simp [eq_comm]

theorem RuleLine.exists_read_eq_ok_iff {line : List Char} :
    (∃ r, RuleLine.read line = .ok r) ↔ firstFault line = none := by
  constructor
  · rintro ⟨r, hr⟩
    cases hfault : firstFault line with
    | none => rfl
    | some e =>
      rw [RuleLine.read_eq_error_iff.2 hfault] at hr
      cases hr
  · intro hnone
    cases hread : RuleLine.read line with
    | ok r => exact ⟨r, rfl⟩
    | error e =>
      rw [RuleLine.read_eq_error_iff.1 hread] at hnone
      cases hnone

/-- The tokens of a rule: one arrow, one name other than `ε` before it, no `$`, and `ε` alone
in its alternative. -/
structure RuleShape (toks : List Token) : Prop where
  one_arrow : (arrows toks).length = 1
  lhs : ∃ t, lhsTokens toks = [t] ∧ t.kind = .name ∧ t.text ≠ epsilon
  no_endMarker : ∀ t ∈ toks, t.text ≠ endMarker
  epsilon_alone : ∀ g ∈ Token.groups (rhsTokens toks), ∀ t ∈ g, t.text = epsilon → g = [t]

theorem firstFault_eq_none_iff {line : List Char} :
    firstFault line = none ↔ RuleShape (Token.scan line) := by
  simp only [firstFault, LineFault.order, List.findSome?_cons, List.findSome?_nil, LineFault.check]
  generalize Token.scan line = toks
  constructor
  · intro hnone
    rcases harrows : arrows toks with _ | ⟨a, _ | ⟨b, rest⟩⟩
    · simp [harrows] at hnone
    · rcases hlhs : lhsTokens toks with _ | ⟨t, _ | ⟨u, more⟩⟩
      · simp [harrows, hlhs] at hnone
      · by_cases hname : t.kind = .name
        · by_cases hε : t.text = epsilon
          · simp [harrows, hlhs, hname, hε] at hnone
          · simp [harrows, hlhs, hname, hε] at hnone
            cases hfind : toks.find? (·.text == endMarker) with
            | some u => simp [hfind] at hnone
            | none =>
              cases hcol : epsilonColumn (Token.groups (rhsTokens toks)) with
              | some c => simp [hfind, hcol] at hnone
              | none =>
                refine ⟨by simp [harrows], ⟨t, hlhs, hname, hε⟩, ?_, ?_⟩
                · intro u hu hend
                  simpa [hend] using List.find?_eq_none.1 hfind u hu
                · intro g hg
                  exact mixesEpsilon_eq_false_iff.1 (epsilonColumn_eq_none_iff.1 hcol g hg)
        · simp [harrows, hlhs, hname] at hnone
      · simp [harrows, hlhs] at hnone
    · simp [harrows] at hnone
  · rintro ⟨hone, ⟨t, hlhs, hname, hε⟩, hend, halone⟩
    obtain ⟨a, harrows⟩ := List.length_eq_one_iff.1 hone
    have hfind : toks.find? (·.text == endMarker) = none := List.find?_eq_none.2 (by simpa using hend)
    have hcol : epsilonColumn (Token.groups (rhsTokens toks)) = none :=
      epsilonColumn_eq_none_iff.2 fun g hg => mixesEpsilon_eq_false_iff.2 (halone g hg)
    simp [harrows, hlhs, hname, hε, hfind, hcol]

/-! ## The lines of a text -/

theorem mem_unifyNewlines {c : Char} (hr : c ≠ '\r') (hn : c ≠ '\n') {cs : List Char} :
    c ∈ unifyNewlines cs ↔ c ∈ cs := by
  fun_induction unifyNewlines cs with
  | case1 => rfl
  | case2 rest ih => simp [ih, hr, hn]
  | case3 d rest _ ih =>
    by_cases hd : d = '\r'
    · simp [hd, ih, hr, hn]
    · simp [hd, ih]

theorem splitLines_ne_nil (cs : List Char) : splitLines cs ≠ [] := by
  cases cs with
  | nil => simp [splitLines]
  | cons c cs =>
    simp only [splitLines]
    split
    · simp
    · split <;> simp

theorem exists_mem_splitLines_iff {c : Char} {cs : List Char} :
    (∃ l ∈ splitLines cs, c ∈ l) ↔ c ∈ cs ∧ c ≠ '\n' := by
  induction cs with
  | nil => simp [splitLines]
  | cons d cs ih =>
    by_cases hd : d = '\n'
    · simp only [splitLines, hd, if_true, List.mem_cons, exists_eq_or_imp, List.not_mem_nil,
        false_or, ih]
      constructor
      · exact fun h => ⟨.inr h.1, h.2⟩
      · rintro ⟨rfl | h, hc⟩
        · exact absurd rfl hc
        · exact ⟨h, hc⟩
    · rcases hsplit : splitLines cs with _ | ⟨l, ls⟩
      · exact absurd hsplit (splitLines_ne_nil cs)
      · rw [hsplit] at ih
        simp only [List.mem_cons, exists_eq_or_imp] at ih
        simp only [splitLines, hd, if_false, hsplit, List.mem_cons, exists_eq_or_imp]
        rw [or_assoc, ih]
        constructor
        · rintro (rfl | h)
          · exact ⟨.inl rfl, hd⟩
          · exact ⟨.inr h.1, h.2⟩
        · rintro ⟨rfl | h, hc⟩
          · exact .inl rfl
          · exact .inr ⟨h, hc⟩

/-- The characters of a text that are read: those after its leading byte-order marks. -/
def sourceChars (text : String) : List Char := dropByteOrderMarks text.toList

/-- The lines of a text, the first numbered 1: carriage returns are made line feeds, and the
text is cut at line feeds. -/
def sourceLines (text : String) : List (List Char) := splitLines (unifyNewlines (sourceChars text))

theorem isBlankText_iff_lines {cs : List Char} :
    isBlankText cs = true ↔ ∀ l ∈ splitLines (unifyNewlines cs), isBlankText l = true := by
  simp only [isBlankText, List.all_eq_true]
  constructor
  · intro h l hl c hc
    by_cases hr : c = '\r'
    · rw [hr]
      decide
    · have hmem := exists_mem_splitLines_iff.1 ⟨l, hl, hc⟩
      exact h c ((mem_unifyNewlines hr hmem.2).1 hmem.1)
  · intro h c hc
    by_cases hblank : isBlank c = true
    · exact hblank
    · have hr : c ≠ '\r' := by
        rintro rfl
        exact hblank (by decide)
      have hn : c ≠ '\n' := by
        rintro rfl
        exact hblank (by decide)
      obtain ⟨l, hl, hcl⟩ := exists_mem_splitLines_iff.2 ⟨(mem_unifyNewlines hr hn).2 hc, hn⟩
      exact h l hl c hcl

theorem not_ruleShape_of_firstFault {l : List Char} {e : LineFault × Nat}
    (h : firstFault l = some e) : ¬RuleShape (Token.scan l) := by
  intro hshape
  rw [firstFault_eq_none_iff.2 hshape] at h
  cases h

theorem ruleShape_of_read_ok {l : List Char} {r : RuleLine} (h : RuleLine.read l = .ok r) :
    RuleShape (Token.scan l) :=
  firstFault_eq_none_iff.1 (RuleLine.exists_read_eq_ok_iff.1 ⟨r, h⟩)

theorem exists_readLines_eq_ok_iff {ls : List (List Char)} {k : Nat} :
    (∃ rs, readLines ls k = .ok rs) ↔
      ∀ l ∈ ls, isBlankText l = false → RuleShape (Token.scan l) := by
  induction ls generalizing k with
  | nil => simp [readLines]
  | cons l ls ih =>
    by_cases hblank : isBlankText l = true
    · simp [readLines, hblank, ih]
    · rw [Bool.not_eq_true] at hblank
      simp only [readLines, hblank, Bool.false_eq_true, if_false, List.mem_cons,
        forall_eq_or_imp, forall_const]
      cases hread : RuleLine.read l with
      | error e =>
        simp only [reduceCtorEq, exists_false, false_iff, not_and]
        exact fun hshape => absurd hshape
          (not_ruleShape_of_firstFault (RuleLine.read_eq_error_iff.1 hread))
      | ok r =>
        simp only [ruleShape_of_read_ok hread, true_and, ← @ih (k + 1)]
        cases readLines ls (k + 1) <;> simp [bind, Except.bind, pure, Except.pure]

/-! ## Reading the lines -/

theorem exists_cons_eq_append {α : Type} {a : α} {as : List α}
    {P : List α → α → List α → Prop} :
    (∃ pre x post, a :: as = pre ++ x :: post ∧ P pre x post) ↔
      P [] a as ∨ ∃ pre x post, as = pre ++ x :: post ∧ P (a :: pre) x post := by
  constructor
  · rintro ⟨_ | ⟨b, pre⟩, x, post, h, hP⟩
    · obtain ⟨rfl, rfl⟩ := List.cons.inj h
      exact .inl hP
    · obtain ⟨rfl, rfl⟩ := List.cons.inj h
      exact .inr ⟨pre, x, post, rfl, hP⟩
  · rintro (hP | ⟨pre, x, post, rfl, hP⟩)
    · exact ⟨[], a, as, rfl, hP⟩
    · exact ⟨a :: pre, x, post, rfl, hP⟩

theorem readLines_eq_error_iff {ls : List (List Char)} {k : Nat} {e : ReadError} :
    readLines ls k = .error e ↔
      ∃ pre l post, ls = pre ++ l :: post ∧
        ((∀ l' ∈ pre, isBlankText l' = false → RuleShape (Token.scan l')) ∧
          isBlankText l = false ∧
          ∃ f c, firstFault l = some (f, c) ∧
            e = .badLine f (k + pre.length) (String.ofList l) c) := by
  induction ls generalizing k with
  | nil => simp [readLines]
  | cons l ls ih =>
    rw [exists_cons_eq_append]
    by_cases hblank : isBlankText l = true
    · simp only [readLines, hblank, if_true, ih, List.mem_cons, forall_eq_or_imp,
        Bool.true_eq_false, false_and, and_false, false_or, IsEmpty.forall_iff, true_and,
        List.length_cons, Nat.add_assoc, Nat.add_comm 1]
    · rw [Bool.not_eq_true] at hblank
      simp only [readLines, hblank, Bool.false_eq_true, if_false, List.mem_cons,
        forall_eq_or_imp, forall_const, List.not_mem_nil, IsEmpty.forall_iff, true_and,
        List.length_nil, Nat.add_zero]
      cases hread : RuleLine.read l with
      | error fc =>
        obtain ⟨f, c⟩ := fc
        have hfault := RuleLine.read_eq_error_iff.1 hread
        simp only [not_ruleShape_of_firstFault hfault, false_and, and_false, exists_false,
          or_false]
        constructor
        · intro h
          exact ⟨f, c, hfault, (Except.error.inj h).symm⟩
        · rintro ⟨f', c', hf', rfl⟩
          rw [hfault, Option.some.injEq, Prod.mk.injEq] at hf'
          rw [hf'.1, hf'.2]
      | ok r =>
        have hnone := RuleLine.exists_read_eq_ok_iff.1 ⟨r, hread⟩
        simp only [hnone, ruleShape_of_read_ok hread, reduceCtorEq, false_and, exists_false,
          false_or, true_and, List.length_cons]
        have ih' := @ih (k + 1)
        simp only [Nat.add_assoc, Nat.add_comm 1] at ih'
        rw [← ih']
        cases readLines ls (k + 1) <;> simp [bind, Except.bind, pure, Except.pure]

theorem readLines_ne_nil {ls : List (List Char)} {k : Nat} {rs : List (Nat × RuleLine)}
    (h : readLines ls k = .ok rs) {l : List Char} (hl : l ∈ ls) (hblank : isBlankText l = false) :
    rs ≠ [] := by
  induction ls generalizing k rs with
  | nil => cases hl
  | cons l₀ ls ih =>
    simp only [readLines] at h
    split at h
    · rcases List.mem_cons.1 hl with rfl | hl
      · rename_i hblank₀
        rw [hblank] at hblank₀
        cases hblank₀
      · exact ih h hl
    · split at h
      · cases h
      · simp only [bind, Except.bind] at h
        split at h
        · cases h
        · simp only [pure, Except.pure, Except.ok.injEq] at h
          subst h
          simp

/-! ## Reading a text -/

theorem Grammar.read_eq_ite (text : String) :
    Grammar.read text =
      if isBlankText (sourceChars text) then .error .empty
      else (readLines (sourceLines text) 1).bind fun lines =>
        match lines with
        | [] => .error .empty
        | (n, r) :: rest => .ok (Grammar.ofLines r ((n, r) :: rest)) := rfl

theorem exists_line_not_blank {text : String} (h : isBlankText (sourceChars text) = false) :
    ∃ l ∈ sourceLines text, isBlankText l = false := by
  by_contra hnone
  have hall : ∀ l ∈ sourceLines text, isBlankText l = true := fun l hl => by
    by_contra hl'
    exact hnone ⟨l, hl, Bool.eq_false_iff.2 hl'⟩
  have hblank : isBlankText (sourceChars text) = true := isBlankText_iff_lines.2 hall
  rw [hblank] at h
  cases h

theorem Grammar.read_cases (text : String) :
    (isBlankText (sourceChars text) = true ∧ Grammar.read text = .error .empty) ∨
      (isBlankText (sourceChars text) = false ∧
        ∃ e, readLines (sourceLines text) 1 = .error e ∧ Grammar.read text = .error e) ∨
      (isBlankText (sourceChars text) = false ∧ (∃ rs, readLines (sourceLines text) 1 = .ok rs) ∧
        ∃ g, Grammar.read text = .ok g) := by
  rw [read_eq_ite]
  by_cases hblank : isBlankText (sourceChars text) = true
  · exact .inl ⟨hblank, by simp [hblank]⟩
  · rw [Bool.not_eq_true] at hblank
    simp only [hblank, Bool.false_eq_true, if_false, true_and, false_and, false_or]
    cases hlines : readLines (sourceLines text) 1 with
    | error e => exact .inl ⟨e, rfl, rfl⟩
    | ok rs =>
      obtain ⟨l, hl, hl'⟩ := exists_line_not_blank hblank
      obtain ⟨⟨n, r⟩, rest, rfl⟩ := List.exists_cons_of_ne_nil (readLines_ne_nil hlines hl hl')
      exact .inr ⟨⟨_, rfl⟩, _, rfl⟩

namespace Grammar

theorem read_eq_empty_iff {text : String} :
    Grammar.read text = .error .empty ↔ isBlankText (sourceChars text) = true := by
  rcases read_cases text with ⟨hblank, hread⟩ | ⟨hblank, e, hlines, hread⟩ | ⟨hblank, -, g, hread⟩
  · exact ⟨fun _ => hblank, fun _ => hread⟩
  · obtain ⟨pre, l, post, -, -, -, f, c, -, rfl⟩ := readLines_eq_error_iff.1 hlines
    simp [hread, hblank]
  · simp [hread, hblank]

theorem exists_read_eq_ok_iff {text : String} :
    (∃ g, Grammar.read text = .ok g) ↔
      isBlankText (sourceChars text) = false ∧
        ∀ l ∈ sourceLines text, isBlankText l = false → RuleShape (Token.scan l) := by
  rcases read_cases text with ⟨hblank, hread⟩ | ⟨hblank, e, hlines, hread⟩ | ⟨hblank, hlines, hok⟩
  · simp [hread, hblank]
  · simp only [hread, reduceCtorEq, exists_false, hblank, true_and, false_iff]
    rw [← exists_readLines_eq_ok_iff, hlines]
    simp
  · exact ⟨fun _ => ⟨hblank, exists_readLines_eq_ok_iff.1 hlines⟩, fun _ => hok⟩

theorem read_eq_badLine_iff {text : String} {f : LineFault} {n : Nat} {s : String} {c : Nat} :
    Grammar.read text = .error (.badLine f n s c) ↔
      ∃ pre l post, sourceLines text = pre ++ l :: post ∧ n = pre.length + 1 ∧
        s = String.ofList l ∧ isBlankText l = false ∧ firstFault l = some (f, c) ∧
        ∀ l' ∈ pre, isBlankText l' = false → RuleShape (Token.scan l') := by
  have hlines_iff : readLines (sourceLines text) 1 = .error (.badLine f n s c) ↔
      ∃ pre l post, sourceLines text = pre ++ l :: post ∧ n = pre.length + 1 ∧
        s = String.ofList l ∧ isBlankText l = false ∧ firstFault l = some (f, c) ∧
        ∀ l' ∈ pre, isBlankText l' = false → RuleShape (Token.scan l') := by
    rw [readLines_eq_error_iff]
    constructor
    · rintro ⟨pre, l, post, hls, hpre, hl, f', c', hfault, heq⟩
      obtain ⟨rfl, rfl, rfl, rfl⟩ := ReadError.badLine.inj heq
      exact ⟨pre, l, post, hls, Nat.add_comm _ _, rfl, hl, hfault, hpre⟩
    · rintro ⟨pre, l, post, hls, rfl, rfl, hl, hfault, hpre⟩
      exact ⟨pre, l, post, hls, hpre, hl, f, c, hfault, by rw [Nat.add_comm]⟩
  rw [← hlines_iff]
  rcases read_cases text with ⟨hblank, hread⟩ | ⟨hblank, e, hlines, hread⟩ |
      ⟨hblank, ⟨rs, hlines⟩, g, hread⟩
  · rw [hread]
    constructor
    · intro h
      cases h
    · intro h
      obtain ⟨pre, l, post, hls, -, -, hl, -⟩ := hlines_iff.1 h
      have hall := isBlankText_iff_lines.1 hblank l (by rw [← sourceLines, hls]; simp)
      rw [hall] at hl
      cases hl
  · simp only [hread, hlines, Except.error.injEq]
  · rw [hread, hlines]
    constructor <;> intro h <;> cases h

/-- Reading a text refuses it as empty exactly when it is blank once its leading byte-order marks
are dropped. Otherwise it reads the text exactly when each line that is not blank has the shape
of a rule; and it refuses the text at line `n`, shown as `s`, with fault `f` at column `c`
exactly when line `n` is the first line that is neither blank nor of that shape, `f` is its
first fault in the order of the checks and `c` the column of that fault. -/
theorem read_reports_first_fault (text : String) :
    (Grammar.read text = .error .empty ↔ isBlankText (sourceChars text) = true) ∧
      ((∃ g, Grammar.read text = .ok g) ↔ isBlankText (sourceChars text) = false ∧
        ∀ l ∈ sourceLines text, isBlankText l = false → RuleShape (Token.scan l)) ∧
      ∀ f n s c, Grammar.read text = .error (.badLine f n s c) ↔
        ∃ pre l post, sourceLines text = pre ++ l :: post ∧ n = pre.length + 1 ∧
          s = String.ofList l ∧ isBlankText l = false ∧ firstFault l = some (f, c) ∧
          ∀ l' ∈ pre, isBlankText l' = false → RuleShape (Token.scan l') :=
  ⟨read_eq_empty_iff, exists_read_eq_ok_iff, fun _ _ _ _ => read_eq_badLine_iff⟩

end Grammar

end SimpleLR