import Mathlib.Data.Finset.Card
import Mathlib.Data.Finset.Lattice.Fold
import Mathlib.Data.List.Chain
import Mathlib.Data.List.Nodup

/-!
# A depth-first search that takes no mark back

`visit` marks a node, and then visits its successors; a node that has a mark already is an error. The marks of a node
that is left stay, so what the search finds is not just cycles: it ends well if and only if no node is reached along two
paths (`visit_ok_iff`).
-/

namespace XCore.Search

/-! ## Paths -/

section

variable {α : Type} (R : α → α → Prop) {a b : α} {l l' : List α}

/-- A path from a node, by the nodes behind it. -/
def Path (a : α) (l : List α) : Prop := List.IsChain R (a :: l)

/-- No two paths from a node have the same end. -/
def OnePath (a : α) : Prop := ∀ l l', Path R a l → Path R a l' → l.getLastD a = l'.getLastD a → l = l'

/-- No path leads back to where it starts. -/
def Acyclic : Prop := ∀ a l, Path R a l → l ≠ [] → l.getLastD a ≠ a

variable {R}

theorem path_nil : Path R a [] := List.IsChain.singleton a

theorem path_cons : Path R a (b :: l) ↔ R a b ∧ Path R b l := List.isChain_cons_cons

theorem Path.beginning (h : Path R a l) (hl : l' <+: l) : Path R a l' := by
  obtain ⟨t, rfl⟩ := hl
  have hall : List.IsChain R ((a :: l') ++ t) := h
  exact hall.left_of_append

/-- Where no two paths meet there is no cycle. -/
theorem acyclic_of_onePath (h : ∀ a, OnePath R a) : Acyclic R := by
  intro a l hl hne hend
  exact hne (h a l [] hl path_nil hend)

/-- Where a rank goes down with every step there is no cycle. -/
theorem acyclic_of_rank (rank : α → Nat) (h : ∀ a b, R a b → rank b < rank a) : Acyclic R := by
  have hdown : ∀ l a, Path R a l → l ≠ [] → rank (l.getLastD a) < rank a := by
    intro l
    induction l with
    | nil => exact fun a _ hne => absurd rfl hne
    | cons b l ih =>
      intro a hl _
      obtain ⟨hab, hl⟩ := path_cons.1 hl
      rw [List.getLastD_cons]
      by_cases hnil : l = []
      · subst hnil
        exact h a b hab
      · exact (ih b hl hnil).trans (h a b hab)
  intro a l hl hne hend
  have hless := hdown l a hl hne
  rw [hend] at hless
  exact Nat.lt_irrefl _ hless

/-- Where there is no cycle, fewer nodes are reached with every step. -/
theorem exists_rank_of_acyclic (h : Acyclic R) (V : List α) :
    ∃ rank : α → Nat, (∀ a, ∀ b ∈ V, R a b → rank b < rank a) ∧ ∀ a ∈ V, rank a < V.length := by
  classical
  let reached (a : α) : Finset α := V.toFinset.filter fun x => ∃ l, Path R a l ∧ l ≠ [] ∧ l.getLastD a = x
  have hself : ∀ a, a ∉ reached a := by
    intro a ha
    obtain ⟨-, l, hl, hne, hend⟩ := Finset.mem_filter.1 ha
    exact h a l hl hne hend
  refine ⟨fun a => (reached a).card, fun a b hb hab => ?_, fun a ha => ?_⟩
  · apply Finset.card_lt_card
    refine (Finset.ssubset_iff_of_subset ?_).2 ⟨b, ?_, hself b⟩
    · intro x hx
      obtain ⟨hx, l, hl, -, hend⟩ := Finset.mem_filter.1 hx
      refine Finset.mem_filter.2 ⟨hx, b :: l, path_cons.2 ⟨hab, hl⟩, List.cons_ne_nil b l, ?_⟩
      rw [List.getLastD_cons, hend]
    · exact Finset.mem_filter.2 ⟨List.mem_toFinset.2 hb, [b], path_cons.2 ⟨hab, path_nil⟩, List.cons_ne_nil b [], rfl⟩
  · have hless : (reached a).card < V.toFinset.card := by
      apply Finset.card_lt_card
      exact (Finset.ssubset_iff_of_subset (Finset.filter_subset ..)).2 ⟨a, List.mem_toFinset.2 ha, hself a⟩
    exact hless.trans_le (List.toFinset_card_le V)

/-- A node of a path is where one of its beginnings ends. -/
theorem exists_beginning (h : b ∈ a :: l) : ∃ p, p <+: l ∧ p.getLastD a = b := by
  induction l generalizing a with
  | nil => exact ⟨[], List.prefix_refl [], (List.mem_singleton.1 h).symm⟩
  | cons c l ih =>
    rcases List.mem_cons.1 h with rfl | h
    · exact ⟨[], List.nil_prefix, rfl⟩
    · obtain ⟨p, hp, hend⟩ := ih h
      exact ⟨c :: p, List.cons_prefix_cons.2 ⟨rfl, hp⟩, by rw [List.getLastD_cons, hend]⟩

/-- A path on which no two beginnings meet has no node twice. -/
theorem nodup_of_onePath {n : Nat}
    (h : ∀ l l', Path R a l → Path R a l' → l.length < n → l'.length < n → l.getLastD a = l'.getLastD a → l = l')
    (hl : Path R a l) (hn : l.length < n) : (a :: l).Nodup := by
  induction l using List.reverseRecOn with
  | nil => exact List.nodup_singleton a
  | append_singleton l b ih =>
    have hpre : l <+: l ++ [b] := List.prefix_append l [b]
    have hlen : (l ++ [b]).length = l.length + 1 := List.length_append
    have hnodup := ih (hl.beginning hpre) (by omega)
    rw [← List.cons_append]
    refine List.nodup_append.2 ⟨hnodup, List.nodup_singleton b, ?_⟩
    rintro c hc d hd rfl
    obtain rfl := List.mem_singleton.1 hd
    -- a beginning that ends here is shorter than the path
    obtain ⟨p, hp, hend⟩ := exists_beginning hc
    have hle := hp.length_le
    have heq := h p (l ++ [c]) (hl.beginning (hp.trans hpre)) hl (by omega) hn (by rw [hend, List.getLastD_concat])
    rw [heq] at hle
    omega

/-- Paths stay among nodes that are closed under steps. -/
theorem Path.subset {V : List α} (hV : ∀ a ∈ V, ∀ b, R a b → b ∈ V) (ha : a ∈ V) (h : Path R a l) : a :: l ⊆ V := by
  induction l generalizing a with
  | nil => exact List.cons_subset.2 ⟨ha, List.nil_subset V⟩
  | cons b l ih =>
    obtain ⟨hab, hl⟩ := path_cons.1 h
    exact List.cons_subset.2 ⟨ha, ih (hV a ha b hab) hl⟩

/-- Among the beginnings of a path that do not meet, those that have fewer than `n` steps, none has as many steps as
there are nodes. -/
theorem length_lt_of_onePath [DecidableEq α] {V : List α} {n : Nat} (hV : ∀ a ∈ V, ∀ b, R a b → b ∈ V) (ha : a ∈ V)
    (hn : V.length < n)
    (h : ∀ l l', Path R a l → Path R a l' → l.length < n → l'.length < n → l.getLastD a = l'.getLastD a → l = l')
    (hl : Path R a l) : l.length < V.length := by
  by_contra hlong
  have htake : (l.take V.length).length = V.length := List.length_take_of_le (by omega)
  have hbegin : l.take V.length <+: l := List.take_prefix V.length l
  have hpath := hl.beginning hbegin
  have hnodup := nodup_of_onePath h hpath (by omega)
  have hle := (hnodup.subperm (hpath.subset hV ha)).length_le
  rw [List.length_cons, htake] at hle
  omega

end

/-! ## The search -/

section

variable {α ε : Type} [DecidableEq α]

/-- Visits of all nodes of a list, each with the marks that the one before leaves. -/
def visitAll (visit : List α → α → Option (Except ε (List α))) : List α → List α → Option (Except ε (List α))
  | marks, [] => some (.ok marks)
  | marks, a :: as =>
    match visit marks a with
    | some (.ok marks) => visitAll visit marks as
    | r => r

/-- A visit, for some depth of calls. -/
def visit (err : ε) (succs : α → List α) : Nat → List α → α → Option (Except ε (List α))
  | 0, _, _ => none
  | n + 1, marks, a => if a ∈ marks then some (.error err) else visitAll (visit err succs n) (a :: marks) (succs a)

/-- The nodes in the order of the visits, if none has a mark. -/
def visits (succs : α → List α) : Nat → α → List α
  | 0, _ => []
  | n + 1, a => a :: (succs a).flatMap (visits succs n)

variable {err : ε} {succs : α → List α} {n : Nat} {marks as V : List α} {a : α} {r : Except ε (List α)}

/-- The outcome is decided by whether some node would have two marks. -/
def Outcome (err : ε) (marks seen : List α) (r : Except ε (List α)) : Prop :=
  (r = .ok (seen.reverse ++ marks) ∧ (seen.reverse ++ marks).Nodup) ∨ (r = .error err ∧ ¬(seen.reverse ++ marks).Nodup)

omit [DecidableEq α] in
theorem visitAll_outcome {f : List α → α → Option (Except ε (List α))} {g : α → List α}
    (h : ∀ {marks a r}, marks.Nodup → f marks a = some r → Outcome err marks (g a) r) (hmarks : marks.Nodup)
    (hr : visitAll f marks as = some r) : Outcome err marks (as.flatMap g) r := by
  induction as generalizing marks with
  | nil =>
    cases hr
    exact Or.inl ⟨rfl, hmarks⟩
  | cons a as ih =>
    have hsplit : ((a :: as).flatMap g).reverse ++ marks = (as.flatMap g).reverse ++ ((g a).reverse ++ marks) := by
      rw [List.flatMap_cons, List.reverse_append, List.append_assoc]
    unfold Outcome
    rw [hsplit]
    unfold visitAll at hr
    cases hone : f marks a with
    | none =>
      rw [hone] at hr
      cases hr
    | some r' =>
      rw [hone] at hr
      rcases h hmarks hone with ⟨rfl, hnodup⟩ | ⟨rfl, hnodup⟩
      · exact ih hnodup hr
      · cases hr
        exact Or.inr ⟨rfl, fun hall => hnodup (hall.sublist (List.sublist_append_right _ _))⟩

theorem visit_outcome (hmarks : marks.Nodup) (hr : visit err succs n marks a = some r) :
    Outcome err marks (visits succs n a) r := by
  induction n generalizing marks a r with
  | zero => cases hr
  | succ n ih =>
    have hsplit : (visits succs (n + 1) a).reverse ++ marks = ((succs a).flatMap (visits succs n)).reverse ++
        a :: marks := by
      rw [visits, List.reverse_cons, List.append_assoc, List.singleton_append]
    unfold Outcome
    rw [hsplit]
    unfold visit at hr
    split at hr
    · rename_i hmem
      cases hr
      refine Or.inr ⟨rfl, fun hall => ?_⟩
      exact (List.nodup_cons.1 (hall.sublist (List.sublist_append_right _ _))).1 hmem
    · rename_i hmem
      exact visitAll_outcome ih (List.nodup_cons.2 ⟨hmem, hmarks⟩) hr

/-- The nodes without a mark. -/
def unmarked (V marks : List α) : Finset α := V.toFinset \ marks.toFinset

theorem unmarked_append_card (V marks seen : List α) : (unmarked V (seen ++ marks)).card ≤ (unmarked V marks).card := by
  apply Finset.card_le_card
  intro x hx
  simp only [unmarked, Finset.mem_sdiff, List.mem_toFinset, List.mem_append, not_or] at hx ⊢
  exact ⟨hx.1, hx.2.2⟩

theorem unmarked_cons_card (hV : a ∈ V) (ha : a ∉ marks) :
    (unmarked V (a :: marks)).card < (unmarked V marks).card := by
  apply Finset.card_lt_card
  refine Finset.ssubset_iff_of_subset ?_ |>.2 ⟨a, ?_, ?_⟩
  · intro x hx
    simp only [unmarked, Finset.mem_sdiff, List.mem_toFinset, List.mem_cons, not_or] at hx ⊢
    exact ⟨hx.1, hx.2.2⟩
  · simp [unmarked, hV, ha]
  · simp [unmarked]

/-- Every call marks a node, so the search comes to an end. -/
theorem visit_isSome (hV : ∀ a ∈ V, ∀ b ∈ succs a, b ∈ V) (ha : a ∈ V) (hmarks : marks.Nodup)
    (hn : (unmarked V marks).card < n) :
    (visit err succs n marks a).isSome := by
  induction n generalizing marks a with
  | zero => exact absurd hn (Nat.not_lt_zero _)
  | succ n ih =>
    unfold visit
    split
    · rfl
    · rename_i hmem
      have hall : ∀ as marks : List α, (∀ b ∈ as, b ∈ V) → marks.Nodup → (unmarked V marks).card < n →
          (visitAll (visit err succs n) marks as).isSome := by
        intro as
        induction as with
        | nil =>
          intro marks _ _ _
          rfl
        | cons b bs ihbs =>
          intro marks hbs hmarks hn
          obtain ⟨r, hr⟩ := Option.isSome_iff_exists.1 (ih (hbs b List.mem_cons_self) hmarks hn)
          unfold visitAll
          rw [hr]
          rcases visit_outcome hmarks hr with ⟨rfl, hnodup⟩ | ⟨rfl, -⟩
          · exact ihbs _ (fun c hc => hbs c (List.mem_cons_of_mem b hc)) hnodup
              (Nat.lt_of_le_of_lt (unmarked_append_card V marks _) hn)
          · rfl
      have hless := unmarked_cons_card ha hmem
      exact hall (succs a) (a :: marks) (hV a ha) (List.nodup_cons.2 ⟨hmem, hmarks⟩) (by omega)

/-! ## What the search finds -/

/-- The paths of less than `n` steps. -/
def paths (succs : α → List α) : Nat → α → List (List α)
  | 0, _ => []
  | n + 1, a => [] :: (succs a).flatMap fun b => (paths succs n b).map (b :: ·)

omit [DecidableEq α] in
theorem mem_paths {l : List α} : l ∈ paths succs n a ↔ Path (fun a b => b ∈ succs a) a l ∧ l.length < n := by
  induction n generalizing a l with
  | zero => simp [paths]
  | succ n ih =>
    cases l with
    | nil => simp [paths, path_nil]
    | cons b l =>
      simp only [paths, List.mem_cons, reduceCtorEq, false_or, List.mem_flatMap, List.mem_map, List.length_cons,
        Nat.succ_lt_succ_iff, path_cons, and_assoc]
      constructor
      · rintro ⟨c, hc, l', hl', heq⟩
        cases heq
        exact ⟨hc, ih.1 hl'⟩
      · rintro ⟨hb, hl⟩
        exact ⟨b, hb, l, ih.2 hl, rfl⟩

omit [DecidableEq α] in
theorem nodup_paths (h : ∀ a, (succs a).Nodup) (n : Nat) (a : α) : (paths succs n a).Nodup := by
  induction n generalizing a with
  | zero => exact List.nodup_nil
  | succ n ih =>
    refine List.nodup_cons.2 ⟨by simp, List.nodup_flatMap.2 ⟨fun b _ => ?_, ?_⟩⟩
    · exact (ih b).map fun _ _ h => (List.cons.inj h).2
    · refine (h a).imp fun {b c} hne l hb hc => ?_
      obtain ⟨l₁, -, rfl⟩ := List.mem_map.1 hb
      obtain ⟨l₂, -, heq⟩ := List.mem_map.1 hc
      exact hne (List.cons.inj heq).1.symm

omit [DecidableEq α] in
/-- One visit for every path. -/
theorem visits_eq (n : Nat) (a : α) : visits succs n a = (paths succs n a).map fun l => l.getLastD a := by
  induction n generalizing a with
  | zero => rfl
  | succ n ih =>
    unfold visits paths
    rw [List.map_cons, List.map_flatMap]
    refine congrArg (List.cons a) (List.flatMap_congr fun b _ => ?_)
    rw [ih, List.map_map]
    apply List.map_congr_left
    intro l _
    exact (@List.getLastD_cons α a b l).symm

/-- **The search from a node** ends well if and only if no two paths from it have the same end. -/
theorem visit_ok_iff (hV : ∀ a ∈ V, ∀ b ∈ succs a, b ∈ V) (ha : a ∈ V) (hn : V.length < n) (h : ∀ a, (succs a).Nodup) :
    (∃ marks, visit err succs n [] a = some (.ok marks)) ↔ OnePath (fun a b => b ∈ succs a) a := by
  have hcard : (unmarked V []).card < n := by
    refine Nat.lt_of_le_of_lt ?_ hn
    rw [unmarked, List.toFinset_nil, Finset.sdiff_empty]
    exact List.toFinset_card_le V
  have hends : (visit err succs n [] a).isSome := visit_isSome hV ha List.nodup_nil hcard
  obtain ⟨r, hr⟩ := Option.isSome_iff_exists.1 hends
  have hdistinct : (visits succs n a).Nodup ↔ ∀ l l', Path (fun a b => b ∈ succs a) a l →
      Path (fun a b => b ∈ succs a) a l' →
      l.length < n → l'.length < n → l.getLastD a = l'.getLastD a → l = l' := by
    rw [visits_eq, List.nodup_map_iff_inj_on (nodup_paths h n a)]
    constructor
    · intro hinj l l' hl hl' hlen hlen'
      exact hinj l (mem_paths.2 ⟨hl, hlen⟩) l' (mem_paths.2 ⟨hl', hlen'⟩)
    · intro hone l hl l' hl'
      exact hone l l' (mem_paths.1 hl).1 (mem_paths.1 hl').1 (mem_paths.1 hl).2 (mem_paths.1 hl').2
  have hok : (∃ marks, visit err succs n [] a = some (.ok marks)) ↔ (visits succs n a).Nodup := by
    have hout := visit_outcome List.nodup_nil hr
    simp only [Outcome, List.append_nil, List.nodup_reverse] at hout
    rw [hr]
    rcases hout with ⟨rfl, hnodup⟩ | ⟨rfl, hnodup⟩
    · exact iff_of_true ⟨_, rfl⟩ hnodup
    · exact iff_of_false (by rintro ⟨_, ⟨⟩⟩) hnodup
  rw [hok, hdistinct]
  constructor
  · intro hone l l' hl hl'
    have hshort : ∀ l, Path (fun a b => b ∈ succs a) a l → l.length < n :=
      fun l hl => (length_lt_of_onePath hV ha hn hone hl).trans hn
    exact hone l l' hl hl' (hshort l hl) (hshort l' hl')
  · intro hone l l' hl hl' _ _
    exact hone l l' hl hl'

/-- Where no two paths meet, the length of the longest path goes down with every step. -/
theorem exists_rank (succs : α → List α) (hV : ∀ a ∈ V, ∀ b ∈ succs a, b ∈ V)
    (h : ∀ a, OnePath (fun a b => b ∈ succs a) a) :
    ∃ rank : α → Nat, ∀ a ∈ V, ∀ b ∈ succs a, rank b < rank a := by
  refine ⟨fun a => (paths succs V.length a).toFinset.sup List.length, fun a ha b hb => ?_⟩
  have hstep : ∀ l, Path (fun a b => b ∈ succs a) b l →
      l.length < (paths succs V.length a).toFinset.sup List.length := by
    intro l hl
    have hpath : Path (fun a b => b ∈ succs a) a (b :: l) := path_cons.2 ⟨hb, hl⟩
    have hshort := length_lt_of_onePath hV ha (Nat.lt_succ_self _) (fun l l' hl hl' _ _ => h a l l' hl hl') hpath
    exact Finset.le_sup (f := List.length) (List.mem_toFinset.2 (mem_paths.2 ⟨hpath, hshort⟩))
  apply (Finset.sup_lt_iff (Nat.lt_of_le_of_lt (Nat.zero_le _) (hstep [] path_nil))).2
  intro l hl
  exact hstep l (mem_paths.1 (List.mem_toFinset.1 hl)).1

end

end XCore.Search
