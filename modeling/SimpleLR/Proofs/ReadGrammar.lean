import SimpleLR.Grammar.Reader
import SimpleLR.Grammar.Vocabulary
import Mathlib.Data.List.Perm.Subperm
/-!
# What a read grammar guarantees

A grammar read from text never uses the end marker `$`, never has `ε` as a left-hand side, and
its augmented start is a name that no rule of the text uses. The last fact is a pigeonhole:
the reader tries one more primed name than there are taken names, and the names it tries are
all different, so one of them is free. The main statement, `Grammar.read_wellFormed`, collects
these facts as `Grammar.WellFormed`.
-/

namespace SimpleLR

/-! ## The augmented start is fresh -/

/-- The names `base'`, `base''`, … that `freshFrom` tries, `fuel` of them. -/
def primedNames (base : Symbol) : Nat → List Symbol
  | 0 => []
  | fuel + 1 => (base ++ "'") :: primedNames (base ++ "'") fuel

theorem length_append_prime (s : Symbol) : (s ++ "'").length = s.length + 1 := by
  rw [String.length_append]
  rfl

theorem length_lt_of_mem_primedNames {base x : Symbol} {fuel : Nat}
    (hx : x ∈ primedNames base fuel) : base.length < x.length := by
  induction fuel generalizing base with
  | zero => simp [primedNames] at hx
  | succ fuel ih =>
    simp only [primedNames, List.mem_cons] at hx
    rcases hx with rfl | hx
    · rw [length_append_prime]
      omega
    · have := ih hx
      rw [length_append_prime] at this
      omega

theorem nodup_primedNames (base : Symbol) (fuel : Nat) : (primedNames base fuel).Nodup := by
  induction fuel generalizing base with
  | zero => simp [primedNames]
  | succ fuel ih =>
    rw [primedNames, List.nodup_cons]
    exact ⟨fun h => Nat.lt_irrefl _ (length_lt_of_mem_primedNames h), ih _⟩

theorem length_primedNames (base : Symbol) (fuel : Nat) : (primedNames base fuel).length = fuel := by
  induction fuel generalizing base with
  | zero => rfl
  | succ fuel ih => simp [primedNames, ih]

theorem primedNames_subset_of_taken {taken : List Symbol} {base : Symbol} {fuel : Nat}
    (h : freshFrom taken base fuel ∈ taken) : ∀ x ∈ primedNames base fuel, x ∈ taken := by
  induction fuel generalizing base with
  | zero => simp [primedNames]
  | succ fuel ih =>
    simp only [freshFrom] at h
    split at h
    · rename_i hname
      intro x hx
      rcases List.mem_cons.1 hx with rfl | hx
      · exact hname
      · exact ih h x hx
    · contradiction

theorem freshStart_not_mem (taken : List Symbol) (start : Symbol) :
    freshStart taken start ∉ taken := by
  intro h
  have hsub := primedNames_subset_of_taken h
  have hle := (List.Nodup.subperm (nodup_primedNames start (taken.length + 1)) hsub).length_le
  rw [length_primedNames] at hle
  omega

/-! ## A rule line -/

namespace RuleLine

theorem leftSide_ok {before : List Token} {col : Nat} {lhs : Symbol}
    (h : leftSide before col = .ok lhs) : lhs ≠ epsilon ∧ ∃ t ∈ before, t.text = lhs := by
  match before, h with
  | [t], h =>
    simp only [leftSide] at h
    split at h
    · cases h
    · split at h
      · cases h
      · cases h
        exact ⟨‹_›, t, List.mem_singleton_self _, rfl⟩

theorem alternative_ok {ts : List Token} {alt : List Symbol} (h : alternative ts = .ok alt) :
    ∀ x ∈ alt, x = epsilon ∨ ∃ t ∈ ts, t.text = x := by
  simp only [alternative] at h
  split at h
  · cases h
    simp
  · split at h
    · cases h
    · cases h
      intro x hx
      obtain ⟨t, ht, rfl⟩ := List.mem_map.1 hx
      exact .inr ⟨t, ht, rfl⟩

theorem alternativesOf_ok {gs : List (List Token)} {alts : List (List Symbol)}
    (h : alternativesOf gs = .ok alts) :
    alts.length = gs.length ∧ ∀ alt ∈ alts, ∀ x ∈ alt, x = epsilon ∨ ∃ g ∈ gs, ∃ t ∈ g, t.text = x := by
  induction gs generalizing alts with
  | nil =>
    simp only [alternativesOf, Except.ok.injEq] at h
    subst h
    simp
  | cons g gs ih =>
    simp only [alternativesOf, bind, Except.bind] at h
    cases ha : alternative g with
    | error e => simp [ha] at h
    | ok a =>
      cases hs : alternativesOf gs with
      | error e => simp [ha, hs] at h
      | ok as =>
        simp only [ha, hs, pure, Except.pure, Except.ok.injEq] at h
        subst h
        obtain ⟨hlen, hall⟩ := ih hs
        refine ⟨by simp [hlen], ?_⟩
        intro alt halt x hx
        rcases List.mem_cons.1 halt with rfl | halt
        · rcases alternative_ok ha x hx with hε | ⟨t, ht, htx⟩
          · exact .inl hε
          · exact .inr ⟨g, List.mem_cons_self, t, ht, htx⟩
        · rcases hall alt halt x hx with hε | ⟨g', hg', t, ht, htx⟩
          · exact .inl hε
          · exact .inr ⟨g', List.mem_cons_of_mem _ hg', t, ht, htx⟩

theorem alternative_epsilon {ts : List Token} {alt : List Symbol} (h : alternative ts = .ok alt)
    (hε : epsilon ∈ alt) : alt = [epsilon] := by
  simp only [alternative] at h
  split at h
  · cases h
    rfl
  · split at h
    · cases h
    · rename_i hfind
      cases h
      obtain ⟨t, ht, htext⟩ := List.mem_map.1 hε
      have := List.find?_eq_none.1 hfind t ht
      simp [htext] at this

theorem alternative_ne_nil {ts : List Token} {alt : List Symbol} (h : alternative ts = .ok alt) :
    alt ≠ [] := by
  simp only [alternative] at h
  split at h
  · cases h
    simp
  · rename_i hnames
    split at h
    · cases h
    · cases h
      exact fun hnil => hnames (.inl hnil)

theorem alternativesOf_forall {P : List Symbol → Prop}
    (hP : ∀ ts alt, alternative ts = .ok alt → P alt) {gs : List (List Token)}
    {alts : List (List Symbol)} (h : alternativesOf gs = .ok alts) : ∀ alt ∈ alts, P alt := by
  induction gs generalizing alts with
  | nil =>
    simp only [alternativesOf, Except.ok.injEq] at h
    subst h
    simp
  | cons g gs ih =>
    simp only [alternativesOf, bind, Except.bind] at h
    cases ha : alternative g with
    | error e => simp [ha] at h
    | ok a =>
      cases hs : alternativesOf gs with
      | error e => simp [ha, hs] at h
      | ok as =>
        simp only [ha, hs, pure, Except.pure, Except.ok.injEq] at h
        subst h
        intro alt halt
        rcases List.mem_cons.1 halt with rfl | halt
        · exact hP g _ ha
        · exact ih hs alt halt

theorem alternativesOf_epsilon {gs : List (List Token)} {alts : List (List Symbol)}
    (h : alternativesOf gs = .ok alts) : ∀ alt ∈ alts, epsilon ∈ alt → alt = [epsilon] :=
  alternativesOf_forall (fun _ _ ha => alternative_epsilon ha) h

end RuleLine

theorem Token.mem_of_mem_groups {ts : List Token} {g : List Token} (hg : g ∈ Token.groups ts)
    {t : Token} (ht : t ∈ g) : t ∈ ts := by
  induction ts generalizing g with
  | nil =>
    simp only [Token.groups, List.mem_singleton] at hg
    subst hg
    simp at ht
  | cons u ts ih =>
    simp only [Token.groups] at hg
    split at hg
    · rcases List.mem_cons.1 hg with rfl | hg
      · simp at ht
      · exact List.mem_cons_of_mem _ (ih hg ht)
    · split at hg
      · rename_i g' gs' hgs
        rcases List.mem_cons.1 hg with rfl | hg
        · rcases List.mem_cons.1 ht with rfl | ht
          · exact List.mem_cons_self
          · exact List.mem_cons_of_mem _ (ih (by simp [hgs]) ht)
        · exact List.mem_cons_of_mem _ (ih (by simp [hgs, hg]) ht)
      · exact absurd ‹_› (Token.groups_ne_nil ts)

theorem RuleLine.read_ok {line : List Char} {r : RuleLine} (h : RuleLine.read line = .ok r) :
    r.lhs ≠ epsilon ∧ r.lhs ≠ endMarker ∧ r.alternatives ≠ [] ∧
      ∀ alt ∈ r.alternatives, endMarker ∉ alt := by
  simp only [RuleLine.read] at h
  split at h
  · cases h
  · cases h
  · rename_i arrow _
    cases hl : leftSide ((Token.scan line).takeWhile fun x => decide (x.kind ≠ .arrow))
      arrow.column with
    | error e =>
      rw [hl] at h
      cases h
    | ok lhs =>
      rw [hl] at h
      simp only [bind, Except.bind] at h
      split at h
      · cases h
      · rename_i hf
        have hno : ∀ t ∈ Token.scan line, t.text ≠ endMarker := by
          intro t ht heq
          have := List.find?_eq_none.1 hf t ht
          simp [heq] at this
        split at h
        · cases h
        · rename_i alts ha
          simp only [pure, Except.pure, Except.ok.injEq] at h
          subst h
          obtain ⟨hε, t, ht, rfl⟩ := leftSide_ok hl
          obtain ⟨hlen, hall⟩ := alternativesOf_ok ha
          refine ⟨hε, hno t (List.takeWhile_subset _ ht), ?_, ?_⟩
          · intro hnil
            have hnil' : alts = [] := hnil
            rw [hnil', List.length_nil] at hlen
            exact Token.groups_ne_nil _ (List.length_eq_zero_iff.1 hlen.symm)
          · intro alt halt hmem
            rcases hall alt halt endMarker hmem with hε' | ⟨g, hg, u, hu, hux⟩
            · exact absurd hε' (by decide)
            · have hu' := Token.mem_of_mem_groups hg hu
              exact hno u (List.dropWhile_subset _ (List.mem_of_mem_drop hu')) hux

theorem RuleLine.read_forall {P : List Symbol → Prop}
    (hP : ∀ ts alt, RuleLine.alternative ts = .ok alt → P alt) {line : List Char} {r : RuleLine}
    (h : RuleLine.read line = .ok r) : ∀ alt ∈ r.alternatives, P alt := by
  simp only [RuleLine.read] at h
  split at h
  · cases h
  · cases h
  · rename_i arrow _
    cases hl : leftSide ((Token.scan line).takeWhile fun x => decide (x.kind ≠ .arrow))
      arrow.column with
    | error e =>
      rw [hl] at h
      cases h
    | ok lhs =>
      rw [hl] at h
      simp only [bind, Except.bind] at h
      split at h
      · cases h
      · split at h
        · cases h
        · rename_i alts ha
          simp only [pure, Except.pure, Except.ok.injEq] at h
          subst h
          exact RuleLine.alternativesOf_forall hP ha

theorem RuleLine.read_epsilon {line : List Char} {r : RuleLine} (h : RuleLine.read line = .ok r) :
    ∀ alt ∈ r.alternatives, epsilon ∈ alt → alt = [epsilon] :=
  RuleLine.read_forall (fun _ _ ha => RuleLine.alternative_epsilon ha) h

/-! ## A read grammar -/

theorem readLines_ok {ls : List (List Char)} {n : Nat} {lines : List (Nat × RuleLine)}
    (h : readLines ls n = .ok lines) : ∀ p ∈ lines, ∃ l, RuleLine.read l = .ok p.2 := by
  induction ls generalizing n lines with
  | nil =>
    simp only [readLines, Except.ok.injEq] at h
    subst h
    simp
  | cons l ls ih =>
    simp only [readLines] at h
    split at h
    · exact ih h
    · split at h
      · cases h
      · rename_i r hr
        simp only [bind, Except.bind] at h
        split at h
        · cases h
        · rename_i rs hrs
          simp only [pure, Except.pure, Except.ok.injEq] at h
          subst h
          intro p hp
          rcases List.mem_cons.1 hp with rfl | hp
          · exact ⟨l, hr⟩
          · exact ih hrs p hp

theorem read_eq_ofLines {text : String} {g : Grammar} (h : Grammar.read text = .ok g) :
    ∃ n first rest, g = Grammar.ofLines first ((n, first) :: rest) ∧
      ∀ p ∈ (n, first) :: rest, ∃ l, RuleLine.read l = .ok p.2 := by
  simp only [Grammar.read] at h
  split at h
  · cases h
  · simp only [bind, Except.bind] at h
    split at h
    · cases h
    · rename_i lines hlines
      split at h
      · cases h
      · rename_i n first rest
        simp only [pure, Except.pure, Except.ok.injEq] at h
        exact ⟨n, first, rest, h.symm, readLines_ok hlines⟩

/-- What every grammar read from text satisfies: `ε` and `$` are no left-hand side, `$` is in no
alternative, the start symbol of the text has a rule, and the augmented start is a name that
no rule of the text uses. -/
structure Grammar.WellFormed (g : Grammar) : Prop where
  lhs_ne_epsilon : ∀ r ∈ g.productions, r.lhs ≠ epsilon
  lhs_ne_endMarker : ∀ r ∈ g.productions, r.lhs ≠ endMarker
  endMarker_not_mem_rhs : ∀ r ∈ g.productions, endMarker ∉ r.rhs
  origin_defined : ∃ r ∈ g.productions, r.lhs = g.origin
  start_ne_lhs : ∀ r ∈ g.productions, r.lhs ≠ g.start
  start_not_mem_rhs : ∀ r ∈ g.productions, g.start ∉ r.rhs
  start_ne_origin : g.start ≠ g.origin

theorem Grammar.mem_productions_ofLines {first : RuleLine} {lines : List (Nat × RuleLine)}
    {r : Rule} : r ∈ (Grammar.ofLines first lines).productions ↔
      ∃ p ∈ lines, ∃ a ∈ p.2.alternatives, r = ⟨p.2.lhs, a, some p.1⟩ := by
  constructor
  · intro hr
    obtain ⟨⟨n, q⟩, hq, hr⟩ := List.mem_flatMap.1 hr
    obtain ⟨a, ha, rfl⟩ := List.mem_map.1 hr
    exact ⟨(n, q), hq, a, ha, rfl⟩
  · rintro ⟨⟨n, q⟩, hq, a, ha, rfl⟩
    exact List.mem_flatMap.2 ⟨(n, q), hq, List.mem_map.2 ⟨a, ha, rfl⟩⟩

theorem Grammar.mem_taken_ofLines {lines : List (Nat × RuleLine)} {p : Nat × RuleLine}
    (hp : p ∈ lines) : (p.2.lhs ∈ lines.flatMap fun (_, r) => r.lhs :: r.alternatives.flatten) ∧
      ∀ a ∈ p.2.alternatives, ∀ x ∈ a, x ∈ lines.flatMap fun (_, r) => r.lhs :: r.alternatives.flatten := by
  obtain ⟨n, q⟩ := p
  refine ⟨List.mem_flatMap.2 ⟨(n, q), hp, List.mem_cons_self⟩, fun a ha x hx => ?_⟩
  exact List.mem_flatMap.2 ⟨(n, q), hp, List.mem_cons_of_mem _ (List.mem_flatten.2 ⟨a, ha, hx⟩)⟩

theorem Grammar.wellFormed_ofLines {n : Nat} {first : RuleLine} {rest : List (Nat × RuleLine)}
    (hlines : ∀ p ∈ (n, first) :: rest, ∃ l, RuleLine.read l = .ok p.2) :
    (Grammar.ofLines first ((n, first) :: rest)).WellFormed := by
  have hok : ∀ p ∈ (n, first) :: rest, p.2.lhs ≠ epsilon ∧ p.2.lhs ≠ endMarker ∧
      p.2.alternatives ≠ [] ∧ ∀ alt ∈ p.2.alternatives, endMarker ∉ alt := by
    intro p hp
    obtain ⟨l, hl⟩ := hlines p hp
    exact RuleLine.read_ok hl
  have hfresh : (Grammar.ofLines first ((n, first) :: rest)).start ∉
      ((n, first) :: rest).flatMap fun (_, r) => r.lhs :: r.alternatives.flatten :=
    freshStart_not_mem _ _
  refine ⟨?_, ?_, ?_, ?_, ?_, ?_, ?_⟩
  · intro r hr
    obtain ⟨p, hp, a, -, rfl⟩ := mem_productions_ofLines.1 hr
    exact (hok p hp).1
  · intro r hr
    obtain ⟨p, hp, a, -, rfl⟩ := mem_productions_ofLines.1 hr
    exact (hok p hp).2.1
  · intro r hr
    obtain ⟨p, hp, a, ha, rfl⟩ := mem_productions_ofLines.1 hr
    exact (hok p hp).2.2.2 a ha
  · obtain ⟨a, ha⟩ := List.exists_mem_of_ne_nil _ (hok (n, first) List.mem_cons_self).2.2.1
    exact ⟨⟨first.lhs, a, some n⟩, mem_productions_ofLines.2 ⟨(n, first), List.mem_cons_self,
      a, ha, rfl⟩, rfl⟩
  · intro r hr heq
    obtain ⟨p, hp, a, -, rfl⟩ := mem_productions_ofLines.1 hr
    apply hfresh
    rw [← heq]
    exact (mem_taken_ofLines hp).1
  · intro r hr hmem
    obtain ⟨p, hp, a, ha, rfl⟩ := mem_productions_ofLines.1 hr
    exact hfresh ((mem_taken_ofLines hp).2 a ha _ hmem)
  · intro heq
    apply hfresh
    rw [heq]
    exact (mem_taken_ofLines List.mem_cons_self).1

theorem Grammar.read_forall {P : List Symbol → Prop}
    (hP : ∀ ts alt, RuleLine.alternative ts = .ok alt → P alt) {text : String} {g : Grammar}
    (h : Grammar.read text = .ok g) : ∀ r ∈ g.productions, P r.rhs := by
  obtain ⟨n, first, rest, rfl, hlines⟩ := read_eq_ofLines h
  intro r hr
  obtain ⟨p, hp, a, ha, rfl⟩ := Grammar.mem_productions_ofLines.1 hr
  obtain ⟨l, hl⟩ := hlines p hp
  exact RuleLine.read_forall hP hl a ha

theorem Grammar.read_epsilon {text : String} {g : Grammar} (h : Grammar.read text = .ok g) :
    ∀ r ∈ g.productions, epsilon ∈ r.rhs → r.rhs = [epsilon] :=
  Grammar.read_forall (fun _ _ ha => RuleLine.alternative_epsilon ha) h

theorem Grammar.read_rhs_ne_nil {text : String} {g : Grammar} (h : Grammar.read text = .ok g) :
    ∀ r ∈ g.productions, r.rhs ≠ [] :=
  Grammar.read_forall (fun _ _ ha => RuleLine.alternative_ne_nil ha) h

/-- Every grammar read from text is well formed. -/
theorem Grammar.read_wellFormed {text : String} {g : Grammar} (h : Grammar.read text = .ok g) :
    g.WellFormed := by
  obtain ⟨n, first, rest, rfl, hlines⟩ := read_eq_ofLines h
  exact wellFormed_ofLines hlines

end SimpleLR
