import SimpleLR.Proofs.ReadShape
/-!
# Terminals and non-terminals partition the symbols

The vocabulary of a grammar read from text sorts its symbols without overlap. Its non-terminals
are the left-hand sides that the text defines, in the order of their first rule
(`nonterminals_eq_defined`); its terminals are the other symbols of the alternatives, `ε` apart,
in the order of their first use (`pairwise_terminals`). Terminals, non-terminals, the end marker,
`ε` and the augmented start are pairwise distinct (`nodup_symbolClasses`), so each column of a
table is found at its own index, and a symbol of an alternative other than `ε` is a terminal or
a non-terminal, never both (`vocabulary_partitions_symbols`).
-/

namespace SimpleLR

/-! ## Order of first occurrence -/

section FirstOccurrence

variable {α : Type} [BEq α] [LawfulBEq α]

theorem idxOf_filter_lt_iff {p : α → Bool} {x y : α} (hx : p x = true) (hy : p y = true)
    (l : List α) : (l.filter p).idxOf x < (l.filter p).idxOf y ↔ l.idxOf x < l.idxOf y := by
  induction l with
  | nil => simp
  | cons a t ih =>
    by_cases ha : p a = true
    · rw [List.filter_cons_of_pos ha]
      by_cases hax : a = x
      · subst hax
        by_cases hay : a = y
        · subst hay
          simp
        · simp [hay]
      · by_cases hay : a = y
        · subst hay
          simp [hax]
        · simp [hax, hay, ih]
    · have hax : a ≠ x := fun h => ha (h ▸ hx)
      have hay : a ≠ y := fun h => ha (h ▸ hy)
      rw [List.filter_cons_of_neg ha]
      simp [hax, hay, ih]

theorem pairwise_idxOf_eraseDups (l : List α) :
    l.eraseDups.Pairwise fun x y => l.idxOf x < l.idxOf y := by
  induction h : l.length using Nat.strongRecOn generalizing l with
  | ind n ih =>
    cases l with
    | nil => simp
    | cons a as =>
      -- the rest is `eraseDups` of the elements other than `a`, a shorter list
      have hlen : (as.filter fun b => !b == a).length < n := by
        have := List.length_filter_le (fun b => !b == a) as
        simp only [List.length_cons] at h
        omega
      have hne : ∀ y ∈ (as.filter fun b => !b == a).eraseDups, y ≠ a := by
        intro y hy
        simpa using (List.mem_filter.1 (List.mem_eraseDups.1 hy)).2
      rw [List.eraseDups_cons, List.pairwise_cons]
      refine ⟨fun y hy => by simp [Ne.symm (hne y hy)], ?_⟩
      refine (ih _ hlen _ rfl).imp_of_mem fun {x y} hx hy hxy => ?_
      have hkx : (!x == a) = true := by simpa using hne x hx
      have hky : (!y == a) = true := by simpa using hne y hy
      rw [idxOf_filter_lt_iff (p := fun b => !b == a) hkx hky] at hxy
      simp [Ne.symm (hne x hx), Ne.symm (hne y hy), hxy]

end FirstOccurrence

namespace Grammar

variable {g : Grammar}

/-! ## The two lists of the vocabulary -/

theorem eraseDups_lhs_rules (hwf : g.WellFormed) :
    (g.rules.map (·.lhs)).eraseDups = g.start :: g.defined := by
  have hkeep : ((g.productions.map (·.lhs)).filter fun b => !b == g.start) =
      g.productions.map (·.lhs) := by
    apply List.filter_eq_self.2
    intro x hx
    obtain ⟨r, hr, rfl⟩ := List.mem_map.1 hx
    simpa using hwf.start_ne_lhs r hr
  simp only [rules, startRule, List.map_cons, List.eraseDups_cons, hkeep, defined]

/-- The non-terminals of the vocabulary are the left-hand sides that the text defines, in the
order of their first rule. -/
theorem nonterminals_eq_defined (hwf : g.WellFormed) : g.vocabulary.nonterminals = g.defined := by
  have hne : ∀ x ∈ g.defined, x ≠ g.start := by
    intro x hx
    obtain ⟨r, hr, rfl⟩ := List.mem_map.1 (List.mem_eraseDups.1 hx)
    exact hwf.start_ne_lhs r hr
  simp only [vocabulary, eraseDups_lhs_rules hwf]
  rw [List.filter_cons_of_neg (by simp), List.filter_eq_self.2 (by simpa using hne)]

theorem WellFormed.start_not_mem_rhs_rules (hwf : g.WellFormed) :
    ∀ r ∈ g.rules, g.start ∉ r.rhs := by
  intro r hr
  rcases List.mem_cons.1 hr with rfl | hr
  · simpa [startRule] using hwf.start_ne_origin
  · exact hwf.start_not_mem_rhs r hr

theorem terminals_eq (hwf : g.WellFormed) : g.vocabulary.terminals =
    ((g.rules.flatMap (·.rhs)).filter fun x => !(g.rules.map (·.lhs)).eraseDups.contains x &&
      x != epsilon).eraseDups := by
  simp only [vocabulary]
  apply List.filter_eq_self.2
  intro x hx
  obtain ⟨r, hr, hx⟩ := List.mem_flatMap.1 (List.mem_filter.1 (List.mem_eraseDups.1 hx)).1
  have hne : x ≠ g.start := fun h => hwf.start_not_mem_rhs_rules r hr (h ▸ hx)
  simpa using hne

theorem pairwise_terminals (hwf : g.WellFormed) :
    g.vocabulary.terminals.Pairwise fun x y =>
      (g.rules.flatMap (·.rhs)).idxOf x < (g.rules.flatMap (·.rhs)).idxOf y := by
  rw [terminals_eq hwf]
  refine (pairwise_idxOf_eraseDups _).imp_of_mem fun {x y} hx hy hxy => ?_
  have hpx := (List.mem_filter.1 (List.mem_eraseDups.1 hx)).2
  have hpy := (List.mem_filter.1 (List.mem_eraseDups.1 hy)).2
  have hkeep := idxOf_filter_lt_iff
    (p := fun x => !(g.rules.map (·.lhs)).eraseDups.contains x && x != epsilon) hpx hpy
    (g.rules.flatMap (·.rhs))
  exact hkeep.1 hxy

theorem pairwise_nonterminals (hwf : g.WellFormed) :
    g.vocabulary.nonterminals.Pairwise fun x y =>
      (g.productions.map (·.lhs)).idxOf x < (g.productions.map (·.lhs)).idxOf y := by
  rw [nonterminals_eq_defined hwf]
  exact pairwise_idxOf_eraseDups _

/-! ## The classes are disjoint -/

theorem mem_terminals_iff (hwf : g.WellFormed) {x : Symbol} : x ∈ g.vocabulary.terminals ↔
    (∃ r ∈ g.rules, x ∈ r.rhs) ∧ (∀ r ∈ g.rules, r.lhs ≠ x) ∧ x ≠ epsilon := by
  rw [mem_terminals]
  constructor
  · rintro ⟨hused, hlhs, heps, -⟩
    exact ⟨hused, hlhs, heps⟩
  · rintro ⟨⟨r, hr, hx⟩, hlhs, heps⟩
    exact ⟨⟨r, hr, hx⟩, hlhs, heps, fun h => hwf.start_not_mem_rhs_rules r hr (h ▸ hx)⟩

theorem xor_isTerminal_nonterminal (hwf : g.WellFormed) {r : Rule} (hr : r ∈ g.rules)
    {x : Symbol} (hx : x ∈ r.rhs) (heps : x ≠ epsilon) :
    Xor (g.vocabulary.isTerminal x = true) (x ∈ g.vocabulary.nonterminals) := by
  have hstart : x ≠ g.start := fun h => hwf.start_not_mem_rhs_rules r hr (h ▸ hx)
  by_cases hdef : ∃ q ∈ g.rules, q.lhs = x
  · refine .inr ⟨mem_nonterminals.2 ⟨hdef, hstart⟩, fun ht => ?_⟩
    obtain ⟨q, hq, hql⟩ := hdef
    exact lhs_ne_of_isTerminal ht hq hql
  · have hlhs : ∀ q ∈ g.rules, q.lhs ≠ x := fun q hq hql => hdef ⟨q, hq, hql⟩
    refine .inl ⟨isTerminal_iff.2 (mem_terminals.2 ⟨⟨r, hr, hx⟩, hlhs, heps, hstart⟩), ?_⟩
    exact fun hn => hdef (mem_nonterminals.1 hn).1

/-- Terminals, the end marker, `ε`, the augmented start and non-terminals are distinct symbols,
and neither list repeats one. -/
theorem nodup_symbolClasses {text : String} (h : Grammar.read text = .ok g) :
    (g.vocabulary.terminals ++ endMarker :: epsilon :: g.start ::
      g.vocabulary.nonterminals).Nodup := by
  have hwf := read_wellFormed h
  obtain ⟨hstartEps, hstartEnd, -⟩ := read_rule_shape h g.startRule List.mem_cons_self
  have hterm : ∀ x ∈ g.vocabulary.terminals,
      x ≠ endMarker ∧ x ≠ epsilon ∧ x ≠ g.start ∧ x ∉ g.vocabulary.nonterminals := by
    intro x hx
    obtain ⟨-, hlhs, heps, hst⟩ := mem_terminals.1 hx
    refine ⟨hwf.ne_endMarker_of_isTerminal (isTerminal_iff.2 hx), heps, hst, fun hn => ?_⟩
    obtain ⟨⟨q, hq, hql⟩, -⟩ := mem_nonterminals.1 hn
    exact hlhs q hq hql
  have hnon : ∀ x ∈ g.vocabulary.nonterminals, x ≠ epsilon ∧ x ≠ g.start := by
    intro x hx
    obtain ⟨⟨q, hq, rfl⟩, hst⟩ := mem_nonterminals.1 hx
    exact ⟨(read_rule_shape h q hq).1, hst⟩
  have hnodupNon : g.vocabulary.nonterminals.Nodup :=
    (pairwise_nonterminals hwf).imp fun hlt heq => by simp [heq] at hlt
  refine List.nodup_append.2 ⟨(pairwise_terminals hwf).imp fun hlt heq => by simp [heq] at hlt,
    ?_, ?_⟩
  · simp only [List.nodup_cons, List.mem_cons, not_or]
    refine ⟨⟨by decide, Ne.symm hstartEnd, hwf.endMarker_not_mem_nonterminals⟩,
      ⟨Ne.symm hstartEps, fun hx => (hnon _ hx).1 rfl⟩, fun hx => (hnon _ hx).2 rfl, hnodupNon⟩
  · intro x hx y hy hxy
    subst hxy
    obtain ⟨hend, heps, hst, hn⟩ := hterm x hx
    simp only [List.mem_cons] at hy
    rcases hy with rfl | rfl | rfl | hy
    · exact hend rfl
    · exact heps rfl
    · exact hst rfl
    · exact hn hy

theorem columnOf?_getElem (hnodup : g.vocabulary.columns.Nodup) {i : Nat}
    (hi : i < g.vocabulary.columns.length) :
    g.vocabulary.columnOf? g.vocabulary.columns[i] = some i := by
  rw [Vocabulary.columnOf?, List.idxOf?_eq_some_iff]
  exact ⟨hi, rfl, fun j hj heq => absurd ((List.getElem_inj hnodup).1 heq) (by omega)⟩

/-! ## The partition -/

/-- The vocabulary of a grammar read from text partitions its symbols. The non-terminals are the
left-hand sides of the text in the order of their first rule; the terminals are the symbols of
alternatives that no rule defines, `ε` apart, in the order of their first use; terminals,
non-terminals, `$`, `ε` and the augmented start are distinct, so the end marker's column follows
the terminals and every column is found at its own index; each symbol of an alternative but `ε`
is a terminal or a non-terminal and not both; the augmented start counts as a non-terminal
only. -/
theorem vocabulary_partitions_symbols {text : String} (h : Grammar.read text = .ok g) :
    g.vocabulary.nonterminals = g.defined ∧
    g.vocabulary.nonterminals.Pairwise (fun x y =>
      (g.productions.map (·.lhs)).idxOf x < (g.productions.map (·.lhs)).idxOf y) ∧
    (∀ x, x ∈ g.vocabulary.terminals ↔
      (∃ r ∈ g.rules, x ∈ r.rhs) ∧ (∀ r ∈ g.rules, r.lhs ≠ x) ∧ x ≠ epsilon) ∧
    g.vocabulary.terminals.Pairwise (fun x y =>
      (g.rules.flatMap (·.rhs)).idxOf x < (g.rules.flatMap (·.rhs)).idxOf y) ∧
    (g.vocabulary.terminals ++ endMarker :: epsilon :: g.start ::
      g.vocabulary.nonterminals).Nodup ∧
    g.vocabulary.columns.Nodup ∧
    g.vocabulary.columns[g.vocabulary.terminals.length]? = some endMarker ∧
    (∀ i (hi : i < g.vocabulary.columns.length),
      g.vocabulary.columnOf? g.vocabulary.columns[i] = some i) ∧
    (∀ r ∈ g.rules, ∀ x ∈ r.rhs, x ≠ epsilon →
      Xor (g.vocabulary.isTerminal x = true) (x ∈ g.vocabulary.nonterminals)) ∧
    g.vocabulary.isTerminal g.start = false ∧ g.vocabulary.isNonterminal g.start = true := by
  have hwf := read_wellFormed h
  have hall := nodup_symbolClasses h
  have hcols : g.vocabulary.columns.Nodup := by
    refine List.Sublist.nodup ?_ hall
    exact List.Sublist.append_left (.cons_cons _ (.cons _ (.cons _ (List.Sublist.refl _)))) _
  refine ⟨nonterminals_eq_defined hwf, pairwise_nonterminals hwf, fun x => mem_terminals_iff hwf,
    pairwise_terminals hwf, hall, hcols, by simp [Vocabulary.columns],
    fun i hi => columnOf?_getElem hcols hi,
    fun r hr x hx heps => xor_isTerminal_nonterminal hwf hr hx heps, ?_, by
      simp [Vocabulary.isNonterminal, vocabulary]⟩
  rw [Bool.eq_false_iff]
  exact fun ht => (mem_terminals.1 (isTerminal_iff.1 ht)).2.2.2 rfl

/-- The grammar of sums has the columns `+`, `id`, `$`, `E`, `T`, each at its own index. -/
theorem vocabulary_partitions_symbols_sums :
    Grammar.read "E -> E + T | T\nT -> id" = .ok sums ∧
      sums.vocabulary.columns = ["+", "id", "$", "E", "T"] ∧
      ∀ i (hi : i < sums.vocabulary.columns.length),
        sums.vocabulary.columnOf? sums.vocabulary.columns[i] = some i := by
  have hread : Grammar.read "E -> E + T | T\nT -> id" = .ok sums := by rfl
  exact ⟨hread, by rfl, (vocabulary_partitions_symbols hread).2.2.2.2.2.2.2.1⟩

end Grammar

end SimpleLR
