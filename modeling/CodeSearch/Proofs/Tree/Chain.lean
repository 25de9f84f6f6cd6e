import CodeSearch.Tree.Basic

/-! # Chains

A chain follows a step from a tree to one of its children until there is none. A tree has enough
nodes for its chains, so no chain is cut short.
-/

namespace CodeSearch

namespace Tree

/-- A step leads from a tree to one of its children. -/
def Descends (step : Tree → Option Tree) : Prop := ∀ t u, step t = some u → u ∈ t.children

variable {step other : Tree → Option Tree}

theorem chainFrom_of_size_le (descends : Descends step) {m n : Nat} {t : Tree}
    (enough : t.size ≤ m) (enough' : t.size ≤ n) : chainFrom step m t = chainFrom step n t := by
  have positive := t.size_pos
  induction m generalizing n t with
  | zero => omega
  | succ m ih =>
    cases n with
    | zero => omega
    | succ n =>
      rw [chainFrom, chainFrom]
      cases next : step t with
      | none => rfl
      | some u =>
        have less := size_lt_of_mem (descends t u next)
        apply congrArg (t :: ·)
        apply ih
        · omega
        · omega
        · exact u.size_pos

theorem mem_chain_self (t : Tree) : t ∈ t.chain step := by
  rw [chain, ← Nat.succ_pred_eq_of_pos t.size_pos, chainFrom]
  exact List.mem_cons_self

theorem chain_of_none {t : Tree} (next : step t = none) : t.chain step = [t] := by
  rw [chain, ← Nat.succ_pred_eq_of_pos t.size_pos, chainFrom, next]

theorem chain_of_some (descends : Descends step) {t u : Tree} (next : step t = some u) :
    t.chain step = t :: u.chain step := by
  have less := size_lt_of_mem (descends t u next)
  rw [chain, chain, ← Nat.succ_pred_eq_of_pos t.size_pos, chainFrom, next]
  apply congrArg (t :: ·)
  apply chainFrom_of_size_le descends
  · rw [Nat.pred_eq_sub_one]
    omega
  · exact Nat.le_refl _

theorem getLast?_chain (descends : Descends step) {t u : Tree} (next : step t = some u) :
    (t.chain step).getLast? = (u.chain step).getLast? := by
  rw [chain_of_some descends next]
  cases rest : u.chain step with
  | nil => exact absurd rest (List.ne_nil_of_mem (mem_chain_self u))
  | cons v vs => exact List.getLast?_cons_cons

/-- What holds where a chain ends, and of each tree if it holds of the one that the step leads to,
holds of all trees. -/
theorem chain_induction (descends : Descends step) {motive : Tree → Prop}
    (stop : ∀ t, step t = none → motive t)
    (go : ∀ t u, step t = some u → motive u → motive t) (t : Tree) : motive t := by
  induction size : t.size using Nat.strongRecOn generalizing t with
  | ind n ih =>
    cases next : step t with
    | none => exact stop t next
    | some u =>
      apply go t u next
      exact ih u.size (size ▸ size_lt_of_mem (descends t u next)) u rfl

/-- A chain goes on to where there is no step. -/
theorem exists_getLast?_chain (descends : Descends step) (t : Tree) :
    ∃ last, (t.chain step).getLast? = some last ∧ step last = none := by
  induction t using chain_induction descends with
  | stop t next => exact ⟨t, by rw [chain_of_none next]; rfl, next⟩
  | go t u next ih =>
    obtain ⟨last, ends, rest⟩ := ih
    exact ⟨last, (getLast?_chain descends next).trans ends, rest⟩

theorem chain_congr (descends : Descends step) (descends' : Descends other) {t : Tree}
    (same : ∀ u ∈ t.chain other, step u = other u) : t.chain step = t.chain other := by
  induction t using chain_induction descends' with
  | stop t next =>
    rw [chain_of_none next] at same ⊢
    rw [chain_of_none ((same t List.mem_cons_self).trans next)]
  | go t u next ih =>
    rw [chain_of_some descends' next] at same ⊢
    rw [chain_of_some descends ((same t List.mem_cons_self).trans next)]
    rw [ih fun v listed => same v (List.mem_cons_of_mem t listed)]

end Tree

end CodeSearch
