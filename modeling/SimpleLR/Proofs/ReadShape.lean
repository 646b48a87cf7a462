import SimpleLR.Proofs.ReadFaults
import SimpleLR.Proofs.RecognizerSound
/-!
# The shape of a grammar read from text

A grammar read from text is laid out as its text is. The augmented start rule `S' -> S` comes
first and is the only rule without a line; then come the alternatives of every line that is
not blank, lines in order and alternatives left to right (`read_productions`), so the origin is
the left-hand side of the first of them. The augmented start is the origin with the fewest
primes, at least one, that make a name no rule of the text uses (`read_start_primed`). Every
alternative is `[ε]` or a list of names, each a name as the scanner reads it: not empty, with
neither white space nor a bar in it, and no arrow inside (`isName_of_mem_scan`).
-/

namespace SimpleLR

open SimpleLR.Text RuleLine

/-! ## Names -/

/-- Two characters in a row that do not spell the arrow `->`. -/
def NotArrow (a b : Char) : Prop := ¬(a = '-' ∧ b = '>')

/-- A name as the scanner reads it: not empty, with neither white space nor a bar in it, and no
arrow `->` inside. -/
def IsName (s : List Char) : Prop :=
  s ≠ [] ∧ (∀ c ∈ s, isWhiteSpace c = false ∧ c ≠ '|') ∧ ¬['-', '>'] <:+: s

theorem not_infix_arrow {s : List Char} (h : s.IsChain NotArrow) : ¬['-', '>'] <:+: s := by
  rintro ⟨pre, post, rfl⟩
  have hmid : List.IsChain NotArrow ['-', '>'] :=
    (List.isChain_append.1 (List.isChain_append.1 h).1).2.1
  exact (List.isChain_cons_cons.1 hmid).1 ⟨rfl, rfl⟩

namespace Token

/-- The name in progress, with `rest` still to read: its characters, kept last first, are
neither white space nor a bar, no two of them in a row spell the arrow, and when it ends in `-`
the rest does not start with `>`. -/
def PendingOk : Option Pending → List Char → Prop
  | none, _ => True
  | some p, rest =>
    p.reversed ≠ [] ∧ (∀ c ∈ p.reversed, isWhiteSpace c = false ∧ c ≠ '|') ∧
      p.reversed.IsChain (fun a b => NotArrow b a) ∧
      (p.reversed.head? = some '-' → rest.head? ≠ some '>')

theorem isName_of_mem_flush {p : Option Pending} {rest : List Char} (hp : PendingOk p rest)
    {ts : List Token} {t : Token} (ht : t ∈ flush p ts) : t ∈ ts ∨ IsName t.text.toList := by
  cases p with
  | none => exact .inl ht
  | some q =>
    rcases List.mem_cons.1 ht with rfl | ht
    · obtain ⟨hne, hchars, hchain, -⟩ := hp
      refine .inr ⟨?_, fun c hc => ?_, ?_⟩
      · simpa [String.toList_ofList] using hne
      · rw [String.toList_ofList, List.mem_reverse] at hc
        exact hchars c hc
      · rw [String.toList_ofList]
        exact not_infix_arrow (List.isChain_reverse.2 hchain)
    · exact .inl ht

theorem pendingOk_extend {p : Option Pending} {c : Char} {rest : List Char}
    (hp : PendingOk p (c :: rest)) (hws : isWhiteSpace c = false) (hbar : c ≠ '|')
    (harrow : c = '-' → rest.head? ≠ some '>') (col : Nat) :
    PendingOk (some (extend p c col)) rest := by
  cases p with
  | none =>
    dsimp only [extend, PendingOk]
    exact ⟨List.cons_ne_nil _ _, by simpa using ⟨hws, hbar⟩, List.isChain_singleton _,
      by simpa using harrow⟩
  | some q =>
    obtain ⟨-, hchars, hchain, hend⟩ := hp
    dsimp only [extend, PendingOk]
    refine ⟨List.cons_ne_nil _ _, fun d hd => ?_, List.isChain_cons.2 ⟨fun y hy => ?_, hchain⟩,
      by simpa using harrow⟩
    · rcases List.mem_cons.1 hd with rfl | hd
      · exact ⟨hws, hbar⟩
      · exact hchars d hd
    · rintro ⟨rfl, rfl⟩
      exact hend hy rfl

theorem isName_of_mem_scanFrom {cs : List Char} {col : Nat} {p : Option Pending} :
    PendingOk p cs → ∀ t ∈ scanFrom cs col p, t.kind = .name → IsName t.text.toList := by
  induction cs, col, p using scanFrom.induct with
  | case1 col p =>
    intro hp t ht _
    rw [scanFrom.eq_1] at ht
    exact (isName_of_mem_flush hp ht).resolve_left List.not_mem_nil
  | case2 rest col p ih =>
    intro hp t ht hname
    rw [scanFrom.eq_2] at ht
    rcases isName_of_mem_flush hp ht with ht | h
    · rcases List.mem_cons.1 ht with rfl | ht
      · cases hname
      · exact ih trivial t ht hname
    · exact h
  | case3 rest col p ih =>
    intro hp t ht hname
    rw [scanFrom.eq_3] at ht
    rcases isName_of_mem_flush hp ht with ht | h
    · rcases List.mem_cons.1 ht with rfl | ht
      · cases hname
      · exact ih trivial t ht hname
    · exact h
  | case4 c rest col p harrow hbar hws ih =>
    intro hp t ht hname
    rw [scanFrom.eq_4 _ _ _ _ harrow hbar, if_pos hws] at ht
    rcases isName_of_mem_flush hp ht with ht | h
    · exact ih trivial t ht hname
    · exact h
  | case5 c rest col p harrow hbar hws ih =>
    intro hp t ht hname
    rw [scanFrom.eq_4 _ _ _ _ harrow hbar, if_neg hws] at ht
    have hnext : c = '-' → rest.head? ≠ some '>' := by
      intro hc hr
      obtain ⟨tl, rfl⟩ := List.head?_eq_some_iff.1 hr
      exact harrow tl hc rfl
    exact ih (pendingOk_extend hp (Bool.eq_false_iff.2 hws) hbar hnext col) t ht hname

theorem isName_of_mem_scan {line : List Char} {t : Token} (ht : t ∈ scan line)
    (hname : t.kind = .name) : IsName t.text.toList :=
  isName_of_mem_scanFrom (show PendingOk none line from trivial) t ht hname

theorem flatten_groups (ts : List Token) : (groups ts).flatten = ts.filter (·.kind ≠ .bar) := by
  induction ts with
  | nil => rfl
  | cons u ts ih =>
    by_cases hu : u.kind = .bar
    · simp [groups, hu, ih]
    · rw [groups, if_neg hu]
      obtain ⟨g, gs, hgs⟩ := List.exists_cons_of_ne_nil (groups_ne_nil ts)
      rw [hgs] at ih ⊢
      rw [List.filter_cons_of_pos (by simpa using hu), ← ih]
      rfl

end Token

/-! ## A rule line -/

/-- The alternative that the tokens between two bars spell: `[ε]` when there are none. -/
def groupAlternative (ts : List Token) : List Symbol :=
  if ts = [] then [epsilon] else ts.map (·.text)

/-- The rules that line `n`, with tokens `toks`, writes: one for each group of tokens between
bars after the arrow, in order, with the name before the arrow as left-hand side. -/
def lineRules (toks : List Token) (n : Nat) : List Rule :=
  (lhsTokens toks).flatMap fun t =>
    (Token.groups (rhsTokens toks)).map fun ts => ⟨t.text, groupAlternative ts, some n⟩

namespace RuleLine

theorem alternative_eq_ok {ts : List Token} {alt : List Symbol} (h : alternative ts = .ok alt) :
    alt = groupAlternative ts := by
  simp only [alternative] at h
  split at h
  · rename_i hnames
    cases h
    by_cases hts : ts = []
    · simp [groupAlternative, hts]
    · rw [groupAlternative, if_neg hts]
      rcases hnames with hnil | hε
      · exact absurd (List.map_eq_nil_iff.1 hnil) hts
      · exact hε.symm
  · rename_i hnames
    split at h
    · cases h
    · cases h
      have hts : ts ≠ [] := fun hnil => hnames (.inl (by simp [hnil]))
      rw [groupAlternative, if_neg hts]

theorem alternativesOf_eq_ok {gs : List (List Token)} {alts : List (List Symbol)}
    (h : alternativesOf gs = .ok alts) : alts = gs.map groupAlternative := by
  induction gs generalizing alts with
  | nil =>
    simp only [alternativesOf, Except.ok.injEq] at h
    exact h.symm
  | cons g gs ih =>
    simp only [alternativesOf, bind, Except.bind] at h
    cases ha : alternative g with
    | error e => simp [ha] at h
    | ok a =>
      cases hs : alternativesOf gs with
      | error e => simp [ha, hs] at h
      | ok as =>
        simp only [ha, hs, pure, Except.pure, Except.ok.injEq] at h
        subst h
        rw [List.map_cons, alternative_eq_ok ha, ih hs]

theorem leftSide_eq_ok {before : List Token} {col : Nat} {lhs : Symbol}
    (h : leftSide before col = .ok lhs) : ∃ t, before = [t] ∧ t.kind = .name ∧ t.text = lhs := by
  match before, h with
  | [t], h =>
    simp only [leftSide] at h
    split at h
    · cases h
    · rename_i hkind
      split at h
      · cases h
      · cases h
        exact ⟨t, rfl, not_not.1 hkind, rfl⟩

theorem read_eq_ok {line : List Char} {r : RuleLine} (h : read line = .ok r) :
    ∃ t, lhsTokens (Token.scan line) = [t] ∧ t.kind = .name ∧ r.lhs = t.text ∧
      r.alternatives = (Token.groups (rhsTokens (Token.scan line))).map groupAlternative := by
  simp only [read] at h
  split at h
  · cases h
  · cases h
  · rename_i arrow _
    cases hl : leftSide ((Token.scan line).takeWhile fun x => decide (x.kind ≠ .arrow))
      arrow.column with
    | error e =>
      rw [hl] at h
      cases h
    | ok lhs =>
      rw [hl] at h
      simp only [bind, Except.bind] at h
      split at h
      · cases h
      · split at h
        · cases h
        · rename_i alts ha
          simp only [pure, Except.pure, Except.ok.injEq] at h
          subst h
          obtain ⟨t, hbefore, hname, rfl⟩ := leftSide_eq_ok hl
          exact ⟨t, hbefore, hname, rfl, alternativesOf_eq_ok ha⟩

theorem lineRules_of_read {line : List Char} {r : RuleLine} (h : read line = .ok r) (n : Nat) :
    lineRules (Token.scan line) n = r.alternatives.map fun a => ⟨r.lhs, a, some n⟩ := by
  obtain ⟨t, hlhs, -, hl, halts⟩ := read_eq_ok h
  rw [lineRules, hlhs, List.flatMap_singleton, halts, hl, List.map_map]
  rfl

theorem isName_lhs {line : List Char} {r : RuleLine} (h : read line = .ok r) :
    IsName r.lhs.toList := by
  obtain ⟨t, hlhs, hname, hl, -⟩ := read_eq_ok h
  have ht : t ∈ Token.scan line := List.takeWhile_subset _ (by rw [← lhsTokens, hlhs]; simp)
  rw [hl]
  exact Token.isName_of_mem_scan ht hname

theorem kind_ne_arrow_of_mem_rhsTokens {toks : List Token} (hone : (arrows toks).length = 1)
    {t : Token} (ht : t ∈ rhsTokens toks) : t.kind ≠ .arrow := by
  induction toks with
  | nil => simp [rhsTokens] at ht
  | cons u us ih =>
    by_cases hu : u.kind = .arrow
    · have hrest : arrows us = [] := by
        simpa [arrows, List.filter_cons, hu] using hone
      have ht' : t ∈ us := by simpa [rhsTokens, List.dropWhile_cons, hu] using ht
      intro htk
      have : t ∈ arrows us := List.mem_filter.2 ⟨ht', by simp [htk]⟩
      rw [hrest] at this
      cases this
    · apply ih
      · simpa [arrows, List.filter_cons, hu] using hone
      · simpa [rhsTokens, List.dropWhile_cons, hu] using ht

theorem alternative_shape {line : List Char} {r : RuleLine} (h : read line = .ok r) :
    ∀ a ∈ r.alternatives, a = [epsilon] ∨
      a ≠ [] ∧ ∀ x ∈ a, x ≠ epsilon ∧ x ≠ endMarker ∧ IsName x.toList := by
  intro a ha
  obtain ⟨-, -, -, -, halts⟩ := read_eq_ok h
  have hend := (read_ok h).2.2.2 a ha
  by_cases hε : epsilon ∈ a
  · exact .inl (read_epsilon h a ha hε)
  right
  rw [halts] at ha
  obtain ⟨ts, hts, rfl⟩ := List.mem_map.1 ha
  have hnil : ts ≠ [] := fun hnil => hε (by simp [groupAlternative, hnil])
  rw [groupAlternative, if_neg hnil] at hε hend ⊢
  refine ⟨by simpa using hnil, fun x hx => ⟨fun hx' => hε (hx' ▸ hx), fun hx' => hend (hx' ▸ hx), ?_⟩⟩
  obtain ⟨t, ht, rfl⟩ := List.mem_map.1 hx
  have hrhs : t ∈ rhsTokens (Token.scan line) := Token.mem_of_mem_groups hts ht
  have hbar : t.kind ≠ .bar := by
    have hflat : t ∈ (Token.groups (rhsTokens (Token.scan line))).flatten :=
      List.mem_flatten.2 ⟨ts, hts, ht⟩
    rw [Token.flatten_groups] at hflat
    exact of_decide_eq_true (List.mem_filter.1 hflat).2
  have harrow := kind_ne_arrow_of_mem_rhsTokens (ruleShape_of_read_ok h).one_arrow hrhs
  have hname : t.kind = .name := by
    cases hk : t.kind
    · exact absurd hk harrow
    · exact absurd hk hbar
    · rfl
  exact Token.isName_of_mem_scan
    (List.dropWhile_subset _ (List.mem_of_mem_drop hrhs)) hname

end RuleLine

/-! ## The rules of a text -/

theorem productions_ofLines_readLines {ls : List (List Char)} {k : Nat}
    {lines : List (Nat × RuleLine)} (h : readLines ls k = .ok lines) (first : RuleLine) :
    (Grammar.ofLines first lines).productions = (ls.zipIdx k).flatMap fun p =>
      if isBlankText p.1 then [] else lineRules (Token.scan p.1) p.2 := by
  induction ls generalizing k lines with
  | nil =>
    simp only [readLines, Except.ok.injEq] at h
    subst h
    rfl
  | cons l ls ih =>
    rw [List.zipIdx_cons, List.flatMap_cons]
    simp only [readLines] at h
    by_cases hblank : isBlankText l = true
    · rw [if_pos hblank] at h
      rw [if_pos hblank, List.nil_append]
      exact ih h
    · rw [if_neg hblank] at h
      rw [if_neg hblank]
      cases hr : RuleLine.read l with
      | error e =>
        rw [hr] at h
        cases h
      | ok r =>
        rw [hr] at h
        simp only [bind, Except.bind] at h
        cases hrs : readLines ls (k + 1) with
        | error e =>
          rw [hrs] at h
          cases h
        | ok rs =>
          rw [hrs] at h
          simp only [pure, Except.pure, Except.ok.injEq] at h
          subst h
          rw [← ih hrs, RuleLine.lineRules_of_read hr]
          rfl

theorem exists_readLines_of_read {text : String} {g : Grammar} (h : Grammar.read text = .ok g) :
    ∃ n r rest, readLines (sourceLines text) 1 = .ok ((n, r) :: rest) ∧
      g = Grammar.ofLines r ((n, r) :: rest) := by
  rw [Grammar.read_eq_ite] at h
  split at h
  · cases h
  · cases hl : readLines (sourceLines text) 1 with
    | error e =>
      rw [hl] at h
      cases h
    | ok lines =>
      rw [hl] at h
      cases lines with
      | nil => cases h
      | cons p rest =>
        obtain ⟨n, r⟩ := p
        exact ⟨n, r, rest, rfl, (Except.ok.inj h).symm⟩

namespace Grammar

/-- The rules of a text, after the augmented start rule, are those of its lines that are not
blank, lines in order and alternatives left to right. -/
theorem read_productions {text : String} {g : Grammar} (h : Grammar.read text = .ok g) :
    g.productions = ((sourceLines text).zipIdx 1).flatMap fun p =>
      if isBlankText p.1 then [] else lineRules (Token.scan p.1) p.2 := by
  obtain ⟨n, r, rest, hlines, rfl⟩ := exists_readLines_of_read h
  exact productions_ofLines_readLines hlines r

theorem read_head_productions {text : String} {g : Grammar} (h : Grammar.read text = .ok g) :
    g.productions.head?.map (·.lhs) = some g.origin := by
  obtain ⟨n, r, rest, hlines, rfl⟩ := exists_readLines_of_read h
  obtain ⟨l, hl⟩ := readLines_ok hlines (n, r) List.mem_cons_self
  have hne : r.alternatives ≠ [] := (RuleLine.read_ok hl).2.2.1
  obtain ⟨a, as, has⟩ := List.exists_cons_of_ne_nil hne
  simp [Grammar.ofLines, has]

end Grammar

/-! ## The augmented start -/

theorem freshFrom_primed {taken : List Symbol} {base : Symbol} {fuel : Nat}
    (h : freshFrom taken base (fuel + 1) ∉ taken) :
    ∃ tried, primedNames base (tried.length + 1) = tried ++ [freshFrom taken base (fuel + 1)] ∧
      ∀ x ∈ tried, x ∈ taken := by
  induction fuel generalizing base with
  | zero =>
    have hone : freshFrom taken base 1 = base ++ "'" := by
      simp only [freshFrom]
      split <;> rfl
    rw [hone]
    exact ⟨[], rfl, by simp⟩
  | succ fuel ih =>
    by_cases hmem : base ++ "'" ∈ taken
    · rw [freshFrom, if_pos hmem] at h ⊢
      obtain ⟨tried, htried, hall⟩ := ih h
      refine ⟨(base ++ "'") :: tried, ?_, fun x hx => ?_⟩
      · rw [List.length_cons, primedNames, htried]
        rfl
      · rcases List.mem_cons.1 hx with rfl | hx
        · exact hmem
        · exact hall x hx
    · rw [freshFrom, if_neg hmem]
      exact ⟨[], rfl, by simp⟩

theorem mem_taken_iff_productions {first : RuleLine} {lines : List (Nat × RuleLine)}
    (hne : ∀ p ∈ lines, p.2.alternatives ≠ []) {x : Symbol} :
    x ∈ lines.flatMap (fun (_, r) => r.lhs :: r.alternatives.flatten) ↔
      x ∈ (Grammar.ofLines first lines).productions.flatMap fun r => r.lhs :: r.rhs := by
  constructor
  · intro hx
    obtain ⟨⟨n, q⟩, hq, hx⟩ := List.mem_flatMap.1 hx
    rcases List.mem_cons.1 hx with rfl | hx
    · obtain ⟨a, ha⟩ := List.exists_mem_of_ne_nil _ (hne _ hq)
      exact List.mem_flatMap.2 ⟨⟨q.lhs, a, some n⟩,
        Grammar.mem_productions_ofLines.2 ⟨(n, q), hq, a, ha, rfl⟩, List.mem_cons_self⟩
    · obtain ⟨a, ha, hx⟩ := List.mem_flatten.1 hx
      exact List.mem_flatMap.2 ⟨⟨q.lhs, a, some n⟩,
        Grammar.mem_productions_ofLines.2 ⟨(n, q), hq, a, ha, rfl⟩, List.mem_cons_of_mem _ hx⟩
  · intro hx
    obtain ⟨r, hr, hx⟩ := List.mem_flatMap.1 hx
    obtain ⟨p, hp, a, ha, rfl⟩ := Grammar.mem_productions_ofLines.1 hr
    rcases List.mem_cons.1 hx with rfl | hx
    · exact (Grammar.mem_taken_ofLines hp).1
    · exact (Grammar.mem_taken_ofLines hp).2 a ha x hx

namespace Grammar

/-- The augmented start is the origin with the fewest primes, at least one, that make a name
that no rule of the text uses. -/
theorem read_start_primed {text : String} {g : Grammar} (h : Grammar.read text = .ok g) :
    ∃ tried, primedNames g.origin (tried.length + 1) = tried ++ [g.start] ∧
      (∀ x ∈ tried, x ∈ g.productions.flatMap fun r => r.lhs :: r.rhs) ∧
      g.start ∉ g.productions.flatMap fun r => r.lhs :: r.rhs := by
  obtain ⟨n, first, rest, rfl, hlines⟩ := read_eq_ofLines h
  have hne : ∀ p ∈ (n, first) :: rest, p.2.alternatives ≠ [] := fun p hp => by
    obtain ⟨l, hl⟩ := hlines p hp
    exact (RuleLine.read_ok hl).2.2.1
  have hfree := freshStart_not_mem
    (((n, first) :: rest).flatMap fun (_, r) => r.lhs :: r.alternatives.flatten) first.lhs
  obtain ⟨tried, htried, hall⟩ := freshFrom_primed hfree
  exact ⟨tried, htried, fun x hx => (mem_taken_iff_productions hne).1 (hall x hx),
    fun hx => hfree ((mem_taken_iff_productions hne).2 hx)⟩

end Grammar

/-! ## The grammar -/

namespace Grammar

variable {g : Grammar}

theorem ne_of_one_lt_length {s t : Symbol} (hs : 1 < s.length) (ht : t.length = 1) : s ≠ t := by
  intro heq
  rw [heq, ht] at hs
  exact Nat.lt_irrefl 1 hs

theorem read_isName_origin {text : String} (h : Grammar.read text = .ok g) :
    IsName g.origin.toList := by
  obtain ⟨n, first, rest, rfl, hlines⟩ := read_eq_ofLines h
  obtain ⟨l, hl⟩ := hlines (n, first) List.mem_cons_self
  exact RuleLine.isName_lhs hl

theorem read_one_lt_length_start {text : String} (h : Grammar.read text = .ok g) :
    1 < g.start.length := by
  obtain ⟨tried, htried, -⟩ := read_start_primed h
  have hstart := length_lt_of_mem_primedNames
    (htried ▸ List.mem_append_right tried (List.mem_singleton_self _))
  have hpos : 0 < g.origin.length := by
    rw [← String.length_toList]
    exact List.length_pos_of_ne_nil (read_isName_origin h).1
  exact Nat.lt_of_le_of_lt hpos hstart

theorem read_rule_shape {text : String} (h : Grammar.read text = .ok g) :
    ∀ r ∈ g.rules, r.lhs ≠ epsilon ∧ r.lhs ≠ endMarker ∧ (r.rhs = [epsilon] ∨
      r.rhs ≠ [] ∧ ∀ x ∈ r.rhs, x ≠ epsilon ∧ x ≠ endMarker ∧ IsName x.toList) := by
  have hwf := read_wellFormed h
  intro r hr
  rcases List.mem_cons.1 hr with rfl | hr
  · have hlong := read_one_lt_length_start h
    obtain ⟨r₀, hr₀, hl₀⟩ := hwf.origin_defined
    refine ⟨ne_of_one_lt_length hlong rfl, ne_of_one_lt_length hlong rfl,
      .inr ⟨List.cons_ne_nil _ _, fun x hx => ?_⟩⟩
    rw [List.mem_singleton.1 hx]
    exact ⟨hl₀ ▸ hwf.lhs_ne_epsilon r₀ hr₀, hl₀ ▸ hwf.lhs_ne_endMarker r₀ hr₀,
      read_isName_origin h⟩
  · obtain ⟨n, first, rest, rfl, hlines⟩ := read_eq_ofLines h
    obtain ⟨p, hp, a, ha, rfl⟩ := mem_productions_ofLines.1 hr
    obtain ⟨l, hl⟩ := hlines p hp
    exact ⟨(RuleLine.read_ok hl).1, (RuleLine.read_ok hl).2.1, RuleLine.alternative_shape hl a ha⟩

theorem mem_defined_iff {x : Symbol} : x ∈ g.defined ↔ g.alternatives x ≠ [] := by
  rw [defined, List.mem_eraseDups, List.mem_map]
  constructor
  · rintro ⟨r, hr, rfl⟩
    exact List.ne_nil_of_mem (mem_alternatives.2 ⟨r, hr, rfl, rfl⟩)
  · intro hne
    obtain ⟨rhs, hrhs⟩ := List.exists_mem_of_ne_nil _ hne
    obtain ⟨r, hr, hl, -⟩ := mem_alternatives.1 hrhs
    exact ⟨r, hr, hl⟩

/-- A grammar read from text: the augmented start rule `S' -> S` comes first and alone has no
line; the rules of each line that is not blank follow, lines in order and alternatives left to
right, so the origin is the left-hand side of the first of them; the augmented start is the
origin with the fewest primes, at least one, that make a name no rule of the text uses, so it
stands in no rule but as the left-hand side of the first and the text does not define it; the
defined symbols are distinct, and are those with an alternative; and every rule has a left-hand
side other than `ε` and `$` and an alternative that is `[ε]` or a list of names other than `ε`
and `$`. -/
theorem read_representation {text : String} (h : Grammar.read text = .ok g) :
    g.rules[0]? = some ⟨g.start, [g.origin], none⟩ ∧
      (∀ r ∈ g.productions, r.augmented = false) ∧
      g.productions = ((sourceLines text).zipIdx 1).flatMap (fun p =>
        if isBlankText p.1 then [] else lineRules (Token.scan p.1) p.2) ∧
      g.productions.head?.map (·.lhs) = some g.origin ∧
      (∃ tried, primedNames g.origin (tried.length + 1) = tried ++ [g.start] ∧
        (∀ x ∈ tried, x ∈ g.productions.flatMap fun r => r.lhs :: r.rhs) ∧
        g.start ∉ g.productions.flatMap fun r => r.lhs :: r.rhs) ∧
      (∀ r ∈ g.rules, (r.lhs = g.start → r = g.startRule) ∧ g.start ∉ r.rhs) ∧
      g.defines g.start = false ∧
      g.defined.Nodup ∧ (∀ x, x ∈ g.defined ↔ g.alternatives x ≠ []) ∧
      ∀ r ∈ g.rules, r.lhs ≠ epsilon ∧ r.lhs ≠ endMarker ∧ (r.rhs = [epsilon] ∨
        r.rhs ≠ [] ∧ ∀ x ∈ r.rhs, x ≠ epsilon ∧ x ≠ endMarker ∧ IsName x.toList) := by
  have hwf := read_wellFormed h
  refine ⟨by simp [rules, startRule], fun r hr => ?_, read_productions h, read_head_productions h,
    read_start_primed h, fun r hr => ?_, ?_, nodup_eraseDups _, fun _ => mem_defined_iff,
    read_rule_shape h⟩
  · obtain ⟨n, first, rest, rfl, -⟩ := read_eq_ofLines h
    obtain ⟨p, -, a, -, rfl⟩ := mem_productions_ofLines.1 hr
    rfl
  · rcases List.mem_cons.1 hr with rfl | hr
    · exact ⟨fun _ => rfl, fun hmem => hwf.start_ne_origin (List.mem_singleton.1 hmem)⟩
    · exact ⟨fun hl => absurd hl (hwf.start_ne_lhs r hr), hwf.start_not_mem_rhs r hr⟩
  · rw [Bool.eq_false_iff]
    intro hd
    obtain ⟨r, hr, hl⟩ := (defines_iff g _).1 hd
    exact hwf.start_ne_lhs r hr hl

/-- The grammar of sums is read from its text, and does not define its augmented start. -/
theorem read_representation_sums :
    Grammar.read "E -> E + T | T\nT -> id" = .ok sums ∧ sums.defines sums.start = false := by
  have hread : Grammar.read "E -> E + T | T\nT -> id" = .ok sums := by rfl
  exact ⟨hread, (read_representation hread).2.2.2.2.2.2.1⟩

end Grammar

end SimpleLR
