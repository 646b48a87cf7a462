import SimpleLR.Grammar.Token
import Mathlib.Data.Nat.Find
/-!
# A rule line is spelled by its tokens

The scanner loses nothing of a line. The line is white space and the texts of its tokens in
turn, each token at its column (`Spelled`); the arrows are exactly the places where `->` occurs,
the bars exactly the places of `|`, and the names exactly the maximal non-empty runs of the
characters left once white space, bars and the occurrences of `->` are taken out
(`scan_spells_line`).

The proof reads a line from its first character. The tokens of `c :: r` are those of `r`, one
column further right, after what `c` makes of them: nothing for white space, an arrow or a bar
token, or for a name character the start of a name, which joins the name that starts right
after it (`scan_cons_blank`, `scan_arrow`, `scan_bar`, `scan_cons_name`). Each of these steps
keeps the description of the line (`Scans.blank`, `Scans.arrow`, `Scans.bar`, `Scans.name`).
-/

namespace SimpleLR

open SimpleLR.Text

namespace Token

/-! ## Moving columns -/

/-- The token with its column moved `k` to the right. -/
def shift (k : Nat) (t : Token) : Token := { t with column := t.column + k }

@[simp] theorem shift_kind (k : Nat) (t : Token) : (t.shift k).kind = t.kind := rfl

@[simp] theorem shift_text (k : Nat) (t : Token) : (t.shift k).text = t.text := rfl

@[simp] theorem shift_column (k : Nat) (t : Token) : (t.shift k).column = t.column + k := rfl

/-- The name in progress with its column moved `k` to the right. -/
def Pending.shift (k : Nat) (p : Pending) : Pending := { p with column := p.column + k }

theorem flush_shift (k : Nat) (p : Option Pending) (ts : List Token) :
    flush (p.map (Pending.shift k)) (ts.map (shift k)) = (flush p ts).map (shift k) := by
  cases p <;> rfl

theorem extend_shift (k : Nat) (p : Option Pending) (c : Char) (col : Nat) :
    extend (p.map (Pending.shift k)) c (col + k) = (extend p c col).shift k := by
  cases p <;> rfl

theorem scanFrom_shift (k : Nat) (cs : List Char) (col : Nat) (p : Option Pending) :
    scanFrom cs (col + k) (p.map (Pending.shift k)) = (scanFrom cs col p).map (shift k) := by
  induction cs, col, p using scanFrom.induct with
  | case1 col p => exact flush_shift k p []
  | case2 rest col p ih | case3 rest col p ih =>
    simp only [Option.map_none] at ih
    simp only [scanFrom.eq_2, scanFrom.eq_3]
    rw [← flush_shift, Nat.add_right_comm, ih]
    rfl
  | case4 c rest col p harrow hbar hws ih =>
    simp only [Option.map_none] at ih
    rw [scanFrom.eq_4 _ _ _ _ harrow hbar, scanFrom.eq_4 _ _ _ _ harrow hbar, if_pos hws,
      if_pos hws, ← flush_shift, Nat.add_right_comm, ih]
  | case5 c rest col p harrow hbar hws ih =>
    rw [scanFrom.eq_4 _ _ _ _ harrow hbar, scanFrom.eq_4 _ _ _ _ harrow hbar, if_neg hws,
      if_neg hws, Nat.add_right_comm, extend_shift, ← ih]
    rfl

/-! ## The name in progress -/

/-- The tokens `ts`, read from column `col` on, after the name in progress `q`: `q` joins the name
that starts at `col`, or stands on its own before them. -/
def withPending (q : Pending) (col : Nat) : List Token → List Token
  | t :: ts =>
    if t.kind = .name ∧ t.column = col then
      ⟨.name, String.ofList (q.reversed.reverse ++ t.text.toList), q.column⟩ :: ts
    else flush (some q) (t :: ts)
  | [] => flush (some q) []

theorem scanFrom_none_some (cs : List Char) (col : Nat) :
    (∀ t ∈ scanFrom cs col none, col ≤ t.column) ∧
      ∀ q, scanFrom cs col (some q) = withPending q col (scanFrom cs col none) := by
  -- neither half depends on the name in progress; follow the scanner from any
  suffices h : ∀ p : Option Pending, (∀ t ∈ scanFrom cs col none, col ≤ t.column) ∧
      ∀ q, scanFrom cs col (some q) = withPending q col (scanFrom cs col none) from h none
  intro p
  induction cs, col, p using scanFrom.induct with
  | case1 col p => simp [scanFrom.eq_1, flush, withPending]
  | case2 rest col p ih | case3 rest col p ih =>
    simp only [scanFrom.eq_2, scanFrom.eq_3, flush, withPending]
    refine ⟨fun t ht => ?_, fun q => by simp⟩
    rcases List.mem_cons.1 ht with rfl | ht
    · exact Nat.le_refl _
    · have := ih.1 t ht
      omega
  | case4 c rest col p harrow hbar hws ih =>
    simp only [scanFrom.eq_4 _ _ _ _ harrow hbar, if_pos hws, flush]
    refine ⟨fun t ht => by have := ih.1 t ht; omega, fun q => ?_⟩
    cases hts : scanFrom rest (col + 1) none with
    | nil => rfl
    | cons t ts =>
      have := ih.1 t (by simp [hts])
      simp only [withPending, flush]
      rw [if_neg (by omega)]
  | case5 c rest col p harrow hbar hws ih =>
    simp only [scanFrom.eq_4 _ _ _ _ harrow hbar, if_neg hws, extend]
    refine ⟨fun t ht => ?_, fun q => ?_⟩
    · rw [ih.2] at ht
      revert ht
      cases hts : scanFrom rest (col + 1) none with
      | nil =>
        simp only [withPending, flush, List.mem_singleton]
        rintro rfl
        exact Nat.le_refl _
      | cons u us =>
        have hu := ih.1 u (by simp [hts])
        have hus : ∀ t ∈ us, col + 1 ≤ t.column := fun t ht => ih.1 t (by simp [hts, ht])
        intro ht
        simp only [withPending, flush] at ht
        split at ht <;> simp only [List.mem_cons] at ht
        · rcases ht with rfl | ht
          · exact Nat.le_refl _
          · have := hus t ht
            omega
        · rcases ht with rfl | rfl | ht
          · exact Nat.le_refl _
          · omega
          · have := hus t ht
            omega
    · rw [ih.2, ih.2]
      cases scanFrom rest (col + 1) none with
      | nil => simp [withPending, flush]
      | cons u us =>
        simp only [withPending, flush]
        split <;> simp

/-! ## A line from its first character -/

theorem ne_dash_bar_of_isWhiteSpace {c : Char} (hws : isWhiteSpace c = true) :
    c ≠ '-' ∧ c ≠ '|' := by
  constructor
  all_goals
    rintro rfl
    exact absurd hws (by decide)

/-- White space only moves the tokens after it. -/
theorem scan_cons_blank {c : Char} (hws : isWhiteSpace c = true) (r : List Char) :
    scan (c :: r) = (scan r).map (shift 1) := by
  obtain ⟨hdash, hbar⟩ := ne_dash_bar_of_isWhiteSpace hws
  rw [scan, scanFrom.eq_4 _ _ _ _ (fun _ h _ => hdash h) hbar, if_pos hws]
  exact scanFrom_shift 1 r 1 none

theorem scan_arrow (r : List Char) :
    scan ('-' :: '>' :: r) = ⟨.arrow, "->", 1⟩ :: (scan r).map (shift 2) := by
  rw [scan, scanFrom.eq_2]
  exact congrArg (List.cons ⟨.arrow, "->", 1⟩) (scanFrom_shift 2 r 1 none)

theorem scan_bar (r : List Char) :
    scan ('|' :: r) = ⟨.bar, "|", 1⟩ :: (scan r).map (shift 1) := by
  rw [scan, scanFrom.eq_3]
  exact congrArg (List.cons ⟨.bar, "|", 1⟩) (scanFrom_shift 1 r 1 none)

/-- A name character begins a name, which joins the name that starts right after it. -/
theorem scan_cons_name {c : Char} {r : List Char} (hws : isWhiteSpace c = false)
    (hbar : c ≠ '|') (harrow : ¬(c = '-' ∧ r.head? = some '>')) :
    scan (c :: r) = withPending ⟨1, [c]⟩ 2 ((scan r).map (shift 1)) := by
  have harrow' : ∀ tl, c = '-' → r = '>' :: tl → False :=
    fun tl hc hr => harrow ⟨hc, by simp [hr]⟩
  rw [scan, scanFrom.eq_4 _ _ _ _ harrow' hbar, if_neg (by simp [hws]),
    (scanFrom_none_some r _).2]
  exact congrArg (withPending _ _) (scanFrom_shift 1 r 1 none)

theorem line_induction {P : List Char → Prop} (nil : P [])
    (blank : ∀ c r, isWhiteSpace c = true → P r → P (c :: r))
    (arrow : ∀ r, P r → P ('-' :: '>' :: r)) (bar : ∀ r, P r → P ('|' :: r))
    (name : ∀ c r, isWhiteSpace c = false → c ≠ '|' → ¬(c = '-' ∧ r.head? = some '>') → P r →
      P (c :: r))
    (line : List Char) : P line := by
  -- the scanner's own recursion, with its column and name in progress left aside
  suffices h : ∀ (col : Nat) (p : Option Pending), P line from h 0 none
  intro col p
  induction line, col, p using scanFrom.induct with
  | case1 => exact nil
  | case2 rest _ _ ih => exact arrow rest ih
  | case3 rest _ _ ih => exact bar rest ih
  | case4 c rest _ _ _ _ hws ih => exact blank c rest hws ih
  | case5 c rest _ _ harrow hbar hws ih =>
    refine name c rest (by simpa using hws) hbar (fun ⟨hc, hr⟩ => ?_) ih
    obtain ⟨tl, rfl⟩ := List.head?_eq_some_iff.1 hr
    exact harrow tl hc rfl

/-! ## Places in a line -/

/-- The arrow `->` begins at place `i` of the line, counted from 0. -/
def ArrowAt (chars : List Char) (i : Nat) : Prop := chars[i]? = some '-' ∧ chars[i + 1]? = some '>'

/-- Place `k` of the line lies in an occurrence of the arrow. -/
def InArrow (line : List Char) (k : Nat) : Prop :=
  ArrowAt line k ∨ ∃ i, k = i + 1 ∧ ArrowAt line i

/-- Place `k` of the line holds a character of a name: neither white space nor a bar, and in no
occurrence of the arrow. -/
def NameAt (chars : List Char) (k : Nat) : Prop :=
  ∃ c, chars[k]? = some c ∧ isWhiteSpace c = false ∧ c ≠ '|' ∧ ¬InArrow chars k

/-- Places `i` to `i + n - 1` of the line are a maximal run of name characters, not empty. -/
def NameRun (line : List Char) (i n : Nat) : Prop :=
  0 < n ∧ (∀ j < n, NameAt line (i + j)) ∧ ¬NameAt line (i + n) ∧ ∀ j, i = j + 1 → ¬NameAt line j

section Places

variable {c : Char} {r : List Char}

theorem arrowAt_cons_succ {i : Nat} : ArrowAt (c :: r) (i + 1) ↔ ArrowAt r i := by
  simp [ArrowAt]

theorem arrowAt_cons_zero : ArrowAt (c :: r) 0 ↔ c = '-' ∧ r.head? = some '>' := by
  simp [ArrowAt, List.head?_eq_getElem?]

theorem arrowAt_cons_iff {i : Nat} :
    ArrowAt (c :: r) i ↔ (i = 0 ∧ ArrowAt (c :: r) 0) ∨ ∃ j, i = j + 1 ∧ ArrowAt r j := by
  cases i with
  | zero => simp
  | succ j => simp [arrowAt_cons_succ]

theorem bar_cons_iff {i : Nat} :
    (c :: r)[i]? = some '|' ↔ (i = 0 ∧ c = '|') ∨ ∃ j, i = j + 1 ∧ r[j]? = some '|' := by
  cases i with
  | zero => simp
  | succ j => simp

theorem inArrow_cons_succ {k : Nat} :
    InArrow (c :: r) (k + 1) ↔ InArrow r k ∨ (k = 0 ∧ ArrowAt (c :: r) 0) := by
  cases k with
  | zero => simp [InArrow, arrowAt_cons_succ]
  | succ k => simp [InArrow, arrowAt_cons_succ]

theorem nameAt_cons_zero :
    NameAt (c :: r) 0 ↔ isWhiteSpace c = false ∧ c ≠ '|' ∧ ¬ArrowAt (c :: r) 0 := by
  simp [NameAt, InArrow]

theorem nameAt_cons_succ {k : Nat} :
    NameAt (c :: r) (k + 1) ↔ NameAt r k ∧ ¬(k = 0 ∧ ArrowAt (c :: r) 0) := by
  simp only [NameAt, List.getElem?_cons_succ, inArrow_cons_succ, not_or]
  constructor
  · rintro ⟨d, hd, hws, hbar, hin, hat⟩
    exact ⟨⟨d, hd, hws, hbar, hin⟩, hat⟩
  · rintro ⟨⟨d, hd, hws, hbar, hin⟩, hat⟩
    exact ⟨d, hd, hws, hbar, hin, hat⟩

theorem nameAt_cons_succ_of_not_arrowAt (h : ¬ArrowAt (c :: r) 0) {k : Nat} :
    NameAt (c :: r) (k + 1) ↔ NameAt r k := by
  rw [nameAt_cons_succ]
  exact ⟨fun h' => h'.1, fun h' => ⟨h', fun hk => h hk.2⟩⟩

theorem not_nameAt_of_length_le {line : List Char} {k : Nat} (h : line.length ≤ k) :
    ¬NameAt line k := by
  rintro ⟨d, hd, -⟩
  simp [List.getElem?_eq_none h] at hd

theorem NameRun.length_eq {line : List Char} {i m n : Nat} (hm : NameRun line i m)
    (hn : NameRun line i n) : m = n := by
  rcases Nat.lt_trichotomy m n with hlt | heq | hgt
  · exact absurd (hn.2.1 m hlt) hm.2.2.1
  · exact heq
  · exact absurd (hm.2.1 n hgt) hn.2.2.1

theorem exists_nameRun_zero {line : List Char} (h : NameAt line 0) : ∃ n, NameRun line 0 n := by
  have hend : ∃ k, ¬NameAt line k := ⟨line.length, not_nameAt_of_length_le (Nat.le_refl _)⟩
  classical
  refine ⟨Nat.find hend, ?_, fun j hj => ?_, ?_, fun j hj => absurd hj (by omega)⟩
  · rcases Nat.eq_zero_or_pos (Nat.find hend) with h0 | h0
    · exact absurd h (h0 ▸ Nat.find_spec hend)
    · exact h0
  · simpa using Nat.find_min hend hj
  · simpa using Nat.find_spec hend

theorem nameRun_shift {L R : List Char} {s : Nat} (hshift : ∀ k, NameAt L (k + s) ↔ NameAt R k)
    {i n : Nat} (hbefore : i = 0 → ∀ j, s = j + 1 → ¬NameAt L j) :
    NameRun L (i + s) n ↔ NameRun R i n := by
  have hk : ∀ j, NameAt L (i + s + j) ↔ NameAt R (i + j) := fun j => by
    rw [show i + s + j = i + j + s by omega]
    exact hshift _
  unfold NameRun
  simp only [hk]
  constructor
  · rintro ⟨hn, hrun, hend, hprev⟩
    refine ⟨hn, hrun, hend, fun j hj => ?_⟩
    rw [← hshift]
    exact hprev (j + s) (by omega)
  · rintro ⟨hn, hrun, hend, hprev⟩
    refine ⟨hn, hrun, hend, fun j hj => ?_⟩
    rcases Nat.eq_zero_or_pos i with rfl | hi
    · exact hbefore rfl j (by omega)
    · obtain ⟨j', rfl⟩ : ∃ j', j = j' + s := ⟨j - s, by omega⟩
      rw [hshift]
      exact hprev j' (by omega)

theorem nameRun_cons_of_not_nameAt (h0 : ¬NameAt (c :: r) 0) (ha : ¬ArrowAt (c :: r) 0)
    {i n : Nat} : NameRun (c :: r) i n ↔ ∃ j, i = j + 1 ∧ NameRun r j n := by
  cases i with
  | zero =>
    simp only [Nat.zero_ne_add_one, false_and, exists_false, iff_false]
    exact fun hrun => h0 (by simpa using hrun.2.1 0 hrun.1)
  | succ j =>
    simp only [Nat.add_right_cancel_iff, exists_eq_left']
    exact nameRun_shift (fun k => nameAt_cons_succ_of_not_arrowAt ha)
      (fun _ j' hj' => by obtain rfl : j' = 0 := (by omega); exact h0)

end Places

/-! ## Lines spelled by tokens -/

/-- `Spelled line col toks`: the line is white space, other than line feeds, and the texts of
the tokens in turn, none empty; each token's column is `col` plus the offset of its text. -/
inductive Spelled : List Char → Nat → List Token → Prop
  | nil (col : Nat) : Spelled [] col []
  | blank {c : Char} {line : List Char} {col : Nat} {toks : List Token} :
      isWhiteSpace c = true → c ≠ '\n' → Spelled line (col + 1) toks → Spelled (c :: line) col toks
  | token {t : Token} {line : List Char} {toks : List Token} : t.text ≠ "" →
      Spelled line (t.column + t.text.length) toks → Spelled (t.text.toList ++ line) t.column (t :: toks)

namespace Spelled

variable {line : List Char} {col : Nat} {toks : List Token}

theorem shift (h : Spelled line col toks) (k : Nat) :
    Spelled line (col + k) (toks.map (Token.shift k)) := by
  induction h with
  | nil col => exact .nil _
  | blank hws hnl _ ih =>
    refine .blank hws hnl ?_
    rwa [Nat.add_right_comm]
  | @token t line toks hne _ ih =>
    have ih' : Spelled line ((t.shift k).column + (t.shift k).text.length)
        (toks.map (Token.shift k)) := by
      simpa [Nat.add_right_comm] using ih
    exact .token (t := t.shift k) hne ih'

theorem column_le (h : Spelled line col toks) : ∀ t ∈ toks, col ≤ t.column := by
  induction h with
  | nil => simp
  | blank _ _ _ ih => exact fun t ht => by have := ih t ht; omega
  | @token t line toks _ _ ih =>
    intro u hu
    rcases List.mem_cons.1 hu with rfl | hu
    · exact Nat.le_refl _
    · have := ih u hu
      omega

theorem pairwise_column_lt (h : Spelled line col toks) :
    toks.Pairwise fun t u => t.column < u.column := by
  induction h with
  | nil => exact .nil
  | blank _ _ _ ih => exact ih
  | @token t line toks hne hrest ih =>
    have hlen : 0 < t.text.length :=
      Nat.pos_of_ne_zero fun h0 => hne (String.length_eq_zero_iff.1 h0)
    refine List.pairwise_cons.2 ⟨fun u hu => ?_, ih⟩
    have := hrest.column_le u hu
    omega

theorem head_at {t : Token} {ts : List Token} (h : Spelled line col (t :: ts))
    (hcol : t.column = col) :
    ∃ rest, line = t.text.toList ++ rest ∧ Spelled rest (col + t.text.length) ts := by
  generalize htoks : t :: ts = toks at h
  induction h with
  | nil => cases htoks
  | blank _ _ hrest _ =>
    subst htoks
    have := hrest.column_le t List.mem_cons_self
    omega
  | token _ hrest =>
    cases htoks
    exact ⟨_, rfl, hcol ▸ hrest⟩

end Spelled

theorem exists_mem_shift_iff {toks : List Token} (hcol : ∀ t ∈ toks, 1 ≤ t.column) {k : Nat}
    {Q : Token → Prop} (hQ : ∀ t, Q (t.shift k) ↔ Q t) {i : Nat} :
    (∃ t ∈ toks.map (Token.shift k), Q t ∧ t.column = i + 1) ↔
      ∃ j, i = j + k ∧ ∃ t ∈ toks, Q t ∧ t.column = j + 1 := by
  simp only [List.mem_map]
  constructor
  · rintro ⟨_, ⟨t, ht, rfl⟩, hq, hc⟩
    rw [shift_column] at hc
    have := hcol t ht
    exact ⟨t.column - 1, by omega, t, ht, (hQ t).1 hq, by omega⟩
  · rintro ⟨j, rfl, t, ht, hq, hc⟩
    exact ⟨t.shift k, ⟨t, ht, rfl⟩, (hQ t).2 hq, by simp [hc]; omega⟩

theorem exists_mem_cons_shift_iff {u : Token} {toks : List Token}
    (hcol : ∀ t ∈ toks, 1 ≤ t.column) {k : Nat} {Q : Token → Prop} (hQ : ∀ t, Q (t.shift k) ↔ Q t)
    {i : Nat} :
    (∃ t ∈ u :: toks.map (Token.shift k), Q t ∧ t.column = i + 1) ↔
      (Q u ∧ u.column = i + 1) ∨ ∃ j, i = j + k ∧ ∃ t ∈ toks, Q t ∧ t.column = j + 1 := by
  simp only [List.mem_cons, or_and_right, exists_or, exists_eq_left]
  rw [exists_mem_shift_iff hcol hQ]

/-! ## What the tokens say of the line -/

/-- What the tokens `toks` say of `line`: they spell it, arrows and bars have their texts, and
the arrow, bar and name tokens start exactly where the line has an arrow, a bar, and a maximal
run of name characters. -/
structure Scans (chars : List Char) (toks : List Token) : Prop where
  spelled : Spelled chars 1 toks
  texts : ∀ t ∈ toks, (t.kind = .arrow → t.text = "->") ∧ (t.kind = .bar → t.text = "|")
  arrows : ∀ i, (∃ t ∈ toks, t.kind = .arrow ∧ t.column = i + 1) ↔ ArrowAt chars i
  bars : ∀ i, (∃ t ∈ toks, t.kind = .bar ∧ t.column = i + 1) ↔ chars[i]? = some '|'
  names : ∀ i n, (∃ t ∈ toks, (t.kind = .name ∧ t.text.length = n) ∧ t.column = i + 1) ↔
    NameRun chars i n

theorem scans_nil : Scans [] [] where
  spelled := .nil 1
  texts := by simp
  arrows := by simp [ArrowAt]
  bars := by simp
  names := fun i n => by
    simp only [List.not_mem_nil, false_and, exists_false, false_iff]
    exact fun hrun => not_nameAt_of_length_le (Nat.zero_le _) (hrun.2.1 0 hrun.1)

section Steps

variable {c : Char} {r : List Char} {toks : List Token}

/-- White space keeps the description, every place one further on. -/
theorem Scans.blank (hws : isWhiteSpace c = true) (hnl : c ≠ '\n') (h : Scans r toks) :
    Scans (c :: r) (toks.map (shift 1)) := by
  have hcol := h.spelled.column_le
  obtain ⟨hdash, hbar⟩ := ne_dash_bar_of_isWhiteSpace hws
  have ha : ¬ArrowAt (c :: r) 0 := fun h => hdash (by simpa [ArrowAt] using h.1)
  have h0 : ¬NameAt (c :: r) 0 := by simp [nameAt_cons_zero, hws]
  refine ⟨.blank hws hnl (h.spelled.shift 1), ?_, fun i => ?_, fun i => ?_, fun i n => ?_⟩
  · simpa using h.texts
  · rw [exists_mem_shift_iff hcol (fun _ => Iff.rfl), arrowAt_cons_iff]
    simp [h.arrows, ha]
  · rw [exists_mem_shift_iff hcol (fun _ => Iff.rfl), bar_cons_iff]
    simp [h.bars, hbar]
  · rw [exists_mem_shift_iff hcol (fun _ => Iff.rfl), nameRun_cons_of_not_nameAt h0 ha]
    simp [h.names]

/-- A bar keeps the description, with its own token in front. -/
theorem Scans.bar (h : Scans r toks) : Scans ('|' :: r) (⟨.bar, "|", 1⟩ :: toks.map (shift 1)) := by
  have hcol := h.spelled.column_le
  have ha : ¬ArrowAt ('|' :: r) 0 := by simp [ArrowAt]
  have h0 : ¬NameAt ('|' :: r) 0 := by simp [nameAt_cons_zero]
  refine ⟨.token (t := ⟨.bar, "|", 1⟩) (by decide) (h.spelled.shift 1), ?_, fun i => ?_,
    fun i => ?_, fun i n => ?_⟩
  · simpa using h.texts
  · rw [exists_mem_cons_shift_iff hcol (fun _ => Iff.rfl), arrowAt_cons_iff]
    simp [h.arrows, ha]
  · rw [exists_mem_cons_shift_iff hcol (fun _ => Iff.rfl), bar_cons_iff]
    simp [h.bars]
  · rw [exists_mem_cons_shift_iff hcol (fun _ => Iff.rfl), nameRun_cons_of_not_nameAt h0 ha]
    simp [h.names]

theorem arrowAt_arrow_iff {i : Nat} :
    ArrowAt ('-' :: '>' :: r) i ↔ i = 0 ∨ ∃ j, i = j + 2 ∧ ArrowAt r j := by
  rcases i with _ | _ | j <;> simp [ArrowAt]

theorem bar_arrow_iff {i : Nat} :
    ('-' :: '>' :: r)[i]? = some '|' ↔ ∃ j, i = j + 2 ∧ r[j]? = some '|' := by
  rcases i with _ | _ | j <;> simp

theorem nameRun_arrow_iff {i n : Nat} :
    NameRun ('-' :: '>' :: r) i n ↔ ∃ j, i = j + 2 ∧ NameRun r j n := by
  have ha : ArrowAt ('-' :: '>' :: r) 0 := by simp [ArrowAt]
  have h0 : ¬NameAt ('-' :: '>' :: r) 0 := by simp [nameAt_cons_zero, ha]
  have h1 : ¬NameAt ('-' :: '>' :: r) 1 := by simp [nameAt_cons_succ (k := 0), ha]
  have hshift : ∀ k, NameAt ('-' :: '>' :: r) (k + 2) ↔ NameAt r k := fun k => by
    rw [nameAt_cons_succ (k := k + 1)]
    simp [nameAt_cons_succ_of_not_arrowAt (c := '>') (by simp [ArrowAt])]
  rcases i with _ | _ | j
  · simp only [Nat.zero_ne_add_one, false_and, exists_false, iff_false]
    exact fun hrun => h0 (by simpa using hrun.2.1 0 hrun.1)
  · simp only [false_and, exists_false, iff_false, show ∀ j, 0 + 1 ≠ j + 2 by omega]
    exact fun hrun => h1 (by simpa using hrun.2.1 0 hrun.1)
  · simp only [show ∀ j', j + 1 + 1 = j' + 2 ↔ j = j' by omega, exists_eq_left']
    exact nameRun_shift hshift (fun _ j' hj' => by obtain rfl : j' = 1 := (by omega); exact h1)

/-- An arrow keeps the description, with its own token in front. -/
theorem Scans.arrow (h : Scans r toks) :
    Scans ('-' :: '>' :: r) (⟨.arrow, "->", 1⟩ :: toks.map (shift 2)) := by
  have hcol := h.spelled.column_le
  refine ⟨.token (t := ⟨.arrow, "->", 1⟩) (by decide) (h.spelled.shift 2), ?_, fun i => ?_,
    fun i => ?_, fun i n => ?_⟩
  · simpa using h.texts
  · rw [exists_mem_cons_shift_iff hcol (fun _ => Iff.rfl), arrowAt_arrow_iff]
    simp [h.arrows]
  · rw [exists_mem_cons_shift_iff hcol (fun _ => Iff.rfl), bar_arrow_iff]
    simp [h.bars]
  · rw [exists_mem_cons_shift_iff hcol (fun _ => Iff.rfl), nameRun_arrow_iff]
    simp [h.names]

/-! ### A name character first -/

theorem nameRun_cons_zero (ha : ¬ArrowAt (c :: r) 0) (h0 : NameAt (c :: r) 0) {m : Nat} :
    NameRun (c :: r) 0 (m + 1) ↔ (m = 0 ∧ ¬NameAt r 0) ∨ NameRun r 0 m := by
  have hat : ∀ j, NameAt (c :: r) (j + 1) ↔ NameAt r j :=
    fun j => nameAt_cons_succ_of_not_arrowAt ha
  have hall : (∀ j < m + 1, NameAt (c :: r) (0 + j)) ↔ ∀ j < m, NameAt r j := by
    constructor
    · intro hrun j hj
      simpa [hat] using hrun (j + 1) (by omega)
    · intro hrun j hj
      rcases j with _ | j
      · simpa using h0
      · simpa [hat] using hrun j (by omega)
  unfold NameRun
  rw [hall, show 0 + (m + 1) = m + 1 by omega, hat]
  simp only [Nat.zero_add, Nat.zero_lt_succ, true_and, Nat.zero_ne_add_one, false_imp_iff,
    implies_true, and_true]
  constructor
  · rintro ⟨hrun, hend⟩
    rcases Nat.eq_zero_or_pos m with rfl | hm
    · exact .inl ⟨rfl, hend⟩
    · exact .inr ⟨hm, hrun, hend⟩
  · rintro (⟨rfl, hend⟩ | ⟨_, hrun, hend⟩)
    · exact ⟨fun j hj => absurd hj (Nat.not_lt_zero j), hend⟩
    · exact ⟨hrun, hend⟩

theorem not_nameRun_cons_one (h0 : NameAt (c :: r) 0) {n : Nat} : ¬NameRun (c :: r) 1 n :=
  fun hrun => hrun.2.2.2 0 rfl h0

theorem nameRun_cons_add_two (ha : ¬ArrowAt (c :: r) 0) {j n : Nat} :
    NameRun (c :: r) (j + 2) n ↔ NameRun r (j + 1) n :=
  nameRun_shift (s := 1) (fun _ => nameAt_cons_succ_of_not_arrowAt ha) (fun hj => by omega)

theorem Scans.name_alone (hws : isWhiteSpace c = false) (hbar : c ≠ '|')
    (ha : ¬ArrowAt (c :: r) 0) (h : Scans r toks)
    (hnot : ∀ t ∈ toks, t.kind = .name → t.column ≠ 1) :
    Scans (c :: r) (⟨.name, String.ofList [c], 1⟩ :: toks.map (shift 1)) := by
  have hcol := h.spelled.column_le
  have h0 : NameAt (c :: r) 0 := nameAt_cons_zero.2 ⟨hws, hbar, ha⟩
  have hnorun : ∀ m, ¬NameRun r 0 m := fun m hrun => by
    obtain ⟨t, ht, ⟨hk, -⟩, hc⟩ := (h.names 0 m).2 hrun
    exact hnot t ht hk hc
  have hr0 : ¬NameAt r 0 := fun hr => (exists_nameRun_zero hr).elim hnorun
  have hspelled : Spelled (c :: r) 1 (⟨.name, String.ofList [c], 1⟩ :: toks.map (shift 1)) := by
    have hs := Spelled.token (t := ⟨.name, String.ofList [c], 1⟩) (by simp)
      (by simpa using h.spelled.shift 1)
    simpa using hs
  refine ⟨hspelled, ?_, fun i => ?_, fun i => ?_, fun i n => ?_⟩
  · simpa using h.texts
  · rw [exists_mem_cons_shift_iff hcol (fun _ => Iff.rfl), arrowAt_cons_iff]
    simp [h.arrows, ha]
  · rw [exists_mem_cons_shift_iff hcol (fun _ => Iff.rfl), bar_cons_iff]
    simp [h.bars, hbar]
  · rw [exists_mem_cons_shift_iff hcol (fun _ => Iff.rfl)]
    dsimp only
    rcases i with _ | _ | j
    · rcases n with _ | m
      · simp [NameRun]
      · rw [nameRun_cons_zero ha h0]
        simp [hr0, hnorun]
    · refine iff_of_false ?_ (not_nameRun_cons_one h0)
      rintro (⟨-, hc⟩ | ⟨j, hj, t, ht, ⟨hk, -⟩, hc⟩)
      · omega
      · obtain rfl : j = 0 := by omega
        exact hnot t ht hk hc
    · rw [nameRun_cons_add_two ha, ← h.names]
      constructor
      · rintro (⟨-, hc⟩ | ⟨j', hj', ht⟩)
        · omega
        · obtain rfl : j' = j + 1 := by omega
          exact ht
      · exact fun ht => .inr ⟨j + 1, rfl, ht⟩

theorem length_ofList_cons_toList (c : Char) (s : String) :
    (String.ofList (c :: s.toList)).length = s.length + 1 := by
  simp only [String.length_ofList, List.length_cons, String.length_toList]

theorem Scans.name_join (hws : isWhiteSpace c = false) (hbar : c ≠ '|')
    (ha : ¬ArrowAt (c :: r) 0) {t : Token} {ts : List Token} (h : Scans r (t :: ts))
    (hkind : t.kind = .name) (hcol1 : t.column = 1) :
    Scans (c :: r) (⟨.name, String.ofList (c :: t.text.toList), 1⟩ :: ts.map (shift 1)) := by
  have hlt : ∀ u ∈ ts, 1 < u.column := by
    intro u hu
    have := (List.pairwise_cons.1 h.spelled.pairwise_column_lt).1 u hu
    omega
  have hcol : ∀ u ∈ ts, 1 ≤ u.column := fun u hu => Nat.le_of_lt (hlt u hu)
  have h0 : NameAt (c :: r) 0 := nameAt_cons_zero.2 ⟨hws, hbar, ha⟩
  have hrun : NameRun r 0 t.text.length :=
    (h.names 0 _).1 ⟨t, List.mem_cons_self, ⟨hkind, rfl⟩, hcol1⟩
  have hspelled : Spelled (c :: r) 1
      (⟨.name, String.ofList (c :: t.text.toList), 1⟩ :: ts.map (shift 1)) := by
    obtain ⟨rest, rfl, hs⟩ := h.spelled.head_at hcol1
    have hlen : 1 + t.text.length + 1 = 1 + (String.ofList (c :: t.text.toList)).length := by
      rw [length_ofList_cons_toList]
      omega
    have hs' := Spelled.token (t := ⟨.name, String.ofList (c :: t.text.toList), 1⟩) (by simp)
      (hlen ▸ hs.shift 1)
    simpa using hs'
  refine ⟨hspelled, ?_, fun i => ?_, fun i => ?_, fun i n => ?_⟩
  · intro u hu
    rcases List.mem_cons.1 hu with rfl | hu
    · simp
    · obtain ⟨v, hv, rfl⟩ := List.mem_map.1 hu
      simpa using h.texts v (List.mem_cons_of_mem _ hv)
  · rw [exists_mem_cons_shift_iff hcol (fun _ => Iff.rfl), arrowAt_cons_iff]
    simp [← h.arrows, hkind, ha]
  · rw [exists_mem_cons_shift_iff hcol (fun _ => Iff.rfl), bar_cons_iff]
    simp [← h.bars, hkind, hbar]
  · rw [exists_mem_cons_shift_iff hcol (fun _ => Iff.rfl)]
    dsimp only
    rcases i with _ | _ | j
    · rcases n with _ | m
      · simp [NameRun]
      · rw [nameRun_cons_zero ha h0]
        have hr0 : NameAt r 0 := by simpa using hrun.2.1 0 hrun.1
        constructor
        · rintro (⟨⟨-, hlen⟩, -⟩ | ⟨j, hj, -⟩)
          · rw [length_ofList_cons_toList, Nat.add_right_cancel_iff] at hlen
            exact .inr (hlen ▸ hrun)
          · omega
        · rintro (⟨-, hr⟩ | hm)
          · exact absurd hr0 hr
          · refine .inl ⟨⟨rfl, ?_⟩, rfl⟩
            rw [length_ofList_cons_toList, hrun.length_eq hm]
    · refine iff_of_false ?_ (not_nameRun_cons_one h0)
      rintro (⟨-, hc⟩ | ⟨j, hj, u, hu, -, hc⟩)
      · omega
      · have := hlt u hu
        omega
    · rw [nameRun_cons_add_two ha, ← h.names]
      constructor
      · rintro (⟨-, hc⟩ | ⟨j', hj', u, hu, hq, hc⟩)
        · omega
        · exact ⟨u, List.mem_cons_of_mem _ hu, hq, by omega⟩
      · rintro ⟨u, hu, hq, hc⟩
        rcases List.mem_cons.1 hu with rfl | hu
        · omega
        · exact .inr ⟨j + 1, rfl, u, hu, hq, hc⟩

/-- A name character keeps the description, joining the name that starts right after it. -/
theorem Scans.name (hws : isWhiteSpace c = false) (hbar : c ≠ '|') (ha : ¬ArrowAt (c :: r) 0)
    (h : Scans r toks) : Scans (c :: r) (withPending ⟨1, [c]⟩ 2 (toks.map (shift 1))) := by
  cases toks with
  | nil =>
    have hW : withPending ⟨1, [c]⟩ 2 (([] : List Token).map (shift 1)) =
        [⟨.name, String.ofList [c], 1⟩] := rfl
    rw [hW]
    exact h.name_alone hws hbar ha (by simp)
  | cons t ts =>
    by_cases hjoin : t.kind = .name ∧ t.column = 1
    · have hW : withPending ⟨1, [c]⟩ 2 ((t :: ts).map (shift 1)) =
          ⟨.name, String.ofList (c :: t.text.toList), 1⟩ :: ts.map (shift 1) := by
        simp [withPending, hjoin.1, hjoin.2]
      rw [hW]
      exact h.name_join hws hbar ha hjoin.1 hjoin.2
    · have hW : withPending ⟨1, [c]⟩ 2 ((t :: ts).map (shift 1)) =
          ⟨.name, String.ofList [c], 1⟩ :: (t :: ts).map (shift 1) := by
        have hne : ¬((t.shift 1).kind = .name ∧ (t.shift 1).column = 2) := fun ⟨hk, hc⟩ => by
          rw [shift_column] at hc
          exact hjoin ⟨hk, by omega⟩
        rw [List.map_cons, withPending, if_neg hne]
        rfl
      rw [hW]
      refine h.name_alone hws hbar ha fun u hu hk hc => ?_
      rcases List.mem_cons.1 hu with rfl | hu
      · exact hjoin ⟨hk, hc⟩
      · have := (List.pairwise_cons.1 h.spelled.pairwise_column_lt).1 u hu
        have := h.spelled.column_le t List.mem_cons_self
        omega

end Steps

theorem scans_scan {line : List Char} (hline : '\n' ∉ line) : Scans line (scan line) := by
  induction line using line_induction with
  | nil => exact scans_nil
  | blank c r hws ih =>
    rw [scan_cons_blank hws]
    exact (ih fun h => hline (List.mem_cons_of_mem _ h)).blank hws
      fun h => hline (h ▸ List.mem_cons_self)
  | arrow r ih =>
    rw [scan_arrow]
    exact (ih fun h => hline (List.mem_cons_of_mem _ (List.mem_cons_of_mem _ h))).arrow
  | bar r ih =>
    rw [scan_bar]
    exact (ih fun h => hline (List.mem_cons_of_mem _ h)).bar
  | name c r hws hbar harrow ih =>
    rw [scan_cons_name hws hbar harrow]
    exact (ih fun h => hline (List.mem_cons_of_mem _ h)).name hws hbar
      (fun h => harrow (arrowAt_cons_zero.1 h))

/-- The tokens of a line without line feeds spell it: white space and their texts in turn,
each at its column. The arrow tokens are exactly the occurrences of `->`, the bar tokens
exactly the bars, and the names exactly the maximal runs of characters that are neither white
space nor a bar and lie in no arrow. -/
theorem scan_spells_line {chars : List Char} (hline : '\n' ∉ chars) :
    Spelled chars 1 (scan chars) ∧
    (∀ t ∈ scan chars, (t.kind = .arrow → t.text = "->") ∧ (t.kind = .bar → t.text = "|")) ∧
    (∀ i, (∃ t ∈ scan chars, t.kind = .arrow ∧ t.column = i + 1) ↔ ArrowAt chars i) ∧
    (∀ i, (∃ t ∈ scan chars, t.kind = .bar ∧ t.column = i + 1) ↔ chars[i]? = some '|') ∧
    ∀ i n, (∃ t ∈ scan chars, (t.kind = .name ∧ t.text.length = n) ∧ t.column = i + 1) ↔
      NameRun chars i n := by
  have h := scans_scan hline
  exact ⟨h.spelled, h.texts, h.arrows, h.bars, h.names⟩

/-- In `b-->c` the name `b-` is the maximal run from the start, and the arrow starts at the
third character. -/
theorem scan_spells_line_doubleDash :
    '\n' ∉ "b-->c".toList ∧ NameRun "b-->c".toList 0 2 ∧ ArrowAt "b-->c".toList 2 := by
  have hline : '\n' ∉ "b-->c".toList := by decide
  have hspec := scan_spells_line hline
  refine ⟨hline, (hspec.2.2.2.2 0 2).1 (by decide +kernel), (hspec.2.2.1 2).1 (by decide +kernel)⟩

end Token

end SimpleLR
