import CodeSearch.Proofs.Tree.Nesting

/-! # Where a walk goes

A node is known by its address, the numbers of the children to take on the way down to it. In
pre-order addresses come as words in a dictionary, so a node comes before those below it, and all
of these before the next sibling.
-/

namespace CodeSearch

namespace Tree

/-- The numbers of the children to take on the way down to a node. -/
abbrev Address := List Nat

/-- The node at an address, if there is one. -/
def at? : Tree → Address → Option Tree
  | t, [] => some t
  | t, i :: a =>
    match t.children[i]? with
    | none => none
    | some c => c.at? a

mutual

/-- The addresses of the nodes of a tree, in pre-order. -/
def addresses : Tree → List Address
  | node _ cs => [] :: addressesFrom 0 cs

/-- The addresses of the nodes below children that are numbered from `i` on. -/
def addressesFrom (i : Nat) : List Tree → List Address
  | [] => []
  | t :: ts => (addresses t).map (i :: ·) ++ addressesFrom (i + 1) ts

end

variable {t u c : Tree} {a b : Address} {i : Nat}

theorem at?_cons (child : t.children[i]? = some c) : t.at? (i :: a) = c.at? a := by
  rw [at?, child]

theorem at?_append (above : t.at? a = some u) : t.at? (a ++ b) = u.at? b := by
  induction a generalizing t with
  | nil =>
    obtain rfl := Option.some.inj above
    rfl
  | cons i a ih =>
    rw [at?] at above
    split at above
    · cases above
    · rename_i c child
      rw [List.cons_append, at?_cons child, ih above]

/-- What is listed from the children that are numbered from `i` on starts with such a number. -/
theorem mem_addressesFrom {ts : List Tree} :
    a ∈ addressesFrom i ts ↔ ∃ j c b, ts[j]? = some c ∧ b ∈ c.addresses ∧ a = (i + j) :: b := by
  induction ts generalizing i with
  | nil => simp [addressesFrom]
  | cons t ts ih =>
    rw [addressesFrom, List.mem_append, List.mem_map, ih]
    constructor
    · rintro (⟨b, listed, rfl⟩ | ⟨j, c, b, child, listed, rfl⟩)
      · exact ⟨0, t, b, rfl, listed, rfl⟩
      · exact ⟨j + 1, c, b, child, listed, by rw [Nat.add_right_comm, Nat.add_assoc]⟩
    · rintro ⟨j, c, b, child, listed, rfl⟩
      cases j with
      | zero =>
        obtain rfl := Option.some.inj child
        exact .inl ⟨b, listed, rfl⟩
      | succ j =>
        exact .inr ⟨j, c, b, child, listed, by rw [Nat.add_right_comm, Nat.add_assoc]⟩

/-- Each node of a tree has its address listed. -/
theorem mem_addresses_of_at? (there : (t.at? a).isSome) : a ∈ t.addresses := by
  induction a generalizing t with
  | nil =>
    cases t with
    | node l cs => exact List.mem_cons_self
  | cons i a ih =>
    rw [at?] at there
    split at there
    · cases there
    · rename_i c child
      cases t with
      | node l cs =>
        refine List.mem_cons_of_mem _ (mem_addressesFrom.mpr ⟨i, c, a, child, ih there, ?_⟩)
        rw [Nat.zero_add]

mutual

/-- Addresses come as words in a dictionary. -/
theorem pairwise_addresses : ∀ t : Tree, t.addresses.Pairwise fun a b => a < b
  | node l cs => by
    rw [addresses]
    refine List.pairwise_cons.mpr ⟨fun a listed => ?_, pairwise_addressesFrom 0 cs⟩
    obtain ⟨j, c, b, -, -, rfl⟩ := mem_addressesFrom.mp listed
    exact List.nil_lt_cons _ _

theorem pairwise_addressesFrom (i : Nat) : ∀ ts : List Tree,
    (addressesFrom i ts).Pairwise fun a b => a < b
  | [] => .nil
  | t :: ts => by
    rw [addressesFrom]
    refine List.pairwise_append.mpr ⟨?_, pairwise_addressesFrom (i + 1) ts, ?_⟩
    · exact List.pairwise_map.mpr ((pairwise_addresses t).imp List.cons_lt_cons_self.mpr)
    · rintro a first b rest
      obtain ⟨a, -, rfl⟩ := List.mem_map.mp first
      obtain ⟨j, c, b, -, -, rfl⟩ := mem_addressesFrom.mp rest
      exact List.Lex.rel (by omega)

end

mutual

/-- The addresses lead to the nodes of the pre-order. -/
theorem map_at?_addresses : ∀ t : Tree, t.addresses.map t.at? = t.preorder.map some
  | node l cs => by
    rw [addresses, preorder, List.map_cons, List.map_cons]
    exact congrArg _ (map_at?_addressesFrom l [] cs)

theorem map_at?_addressesFrom (l : Label) (before : List Tree) : ∀ ts : List Tree,
    (addressesFrom before.length ts).map (node l (before ++ ts)).at? = (preorders ts).map some
  | [] => rfl
  | t :: ts => by
    have child : (node l (before ++ t :: ts)).children[before.length]? = some t := by
      simp [children]
    have inside : (node l (before ++ t :: ts)).at? ∘ (before.length :: ·) = t.at? :=
      funext fun a => at?_cons child
    have rest := map_at?_addressesFrom l (before ++ [t]) ts
    rw [List.length_append, List.length_singleton, List.append_assoc, List.singleton_append] at rest
    rw [addressesFrom, preorders, List.map_append, List.map_append, List.map_map, inside,
      map_at?_addresses t, rest]

end

theorem length_addresses (t : Tree) : t.addresses.length = t.size := by
  have same := congrArg List.length (map_at?_addresses t)
  rwa [List.length_map, List.length_map, length_preorder] at same

end Tree

namespace Cursor

open CodeSearch.Tree

/-- The address of the node that a way down leads to, from the node where it starts. -/
def addressOf : Trail → Address
  | [] => []
  | (up, later) :: trail => addressOf trail ++ [up.children.length - later.length - 1]

/-- The address of the node that a cursor stands on, from the node where it started. -/
def address (c : Cursor) : Address := addressOf c.trail

mutual

theorem map_address_stations (trail : Trail) : ∀ t : Tree,
    (stations trail t).map address = t.addresses.map (addressOf trail ++ ·)
  | node l cs => by
    have below := map_address_stationsIn trail l [] cs
    rw [List.nil_append] at below
    rw [stations, addresses, List.map_cons, List.map_cons, below, List.append_nil]
    rfl

theorem map_address_stationsIn (trail : Trail) (l : Label) (before : List Tree) :
    ∀ ts : List Tree, (stationsIn trail (node l (before ++ ts)) ts).map address =
      (addressesFrom before.length ts).map (addressOf trail ++ ·)
  | [] => rfl
  | t :: ts => by
    have number : addressOf ((node l (before ++ t :: ts), ts) :: trail) =
        addressOf trail ++ [before.length] := by
      simp only [addressOf, children, List.length_append, List.length_cons]
      congr 2
      omega
    have rest := map_address_stationsIn trail l (before ++ [t]) ts
    rw [List.length_append, List.length_singleton, List.append_assoc, List.singleton_append] at rest
    rw [stationsIn, addressesFrom, List.map_append, List.map_append, map_address_stations _ t, rest,
      List.map_map, number]
    simp

end

/-- What the next calls of a walk give. -/
def results : Nat → Walk → List (Option Tree)
  | 0, _ => []
  | n + 1, w => (next? w).1 :: results n (next? w).2

/-- A walk gives the nodes that it has still to visit and then nothing any more. -/
theorem results_eq (n : Nat) (w : Walk) : results n w =
    (stops n w).map (fun c => some c.focus) ++ List.replicate (n - (upcoming w).length) none := by
  induction n generalizing w with
  | zero => simp [results, stops]
  | succ n ih =>
    cases w with
    | none =>
      have rest := ih none
      cases n <;> simp_all [results, stops, next?, upcoming, List.replicate_succ]
    | some c =>
      have fewer : (upcoming (some c)).length = (upcoming c.advance).length + 1 := by
        rw [upcoming_advance, upcoming, stations_eq, List.cons_append, List.length_cons]
      rw [results, stops, fewer, Nat.add_sub_add_right]
      exact congrArg _ (ih c.advance)

/-- What a walk from the node at an address of a tree does. -/
structure Explores (t : Tree) (a : Address) (u : Tree) : Prop where
  /-- The calls give the nodes of the visits. When there are no more they give nothing, however
  often the walk is called. -/
  given : ∀ n, results n (some (.start u)) =
    (stops n (some (.start u))).map (fun c => some c.focus) ++ List.replicate (n - u.size) none
  preorder : ∀ n, (stops n (some (.start u))).map focus = u.preorder.take n
  /-- What is visited is the node of the tree at its address below that of the start. -/
  inside : ∀ n, ∀ c ∈ stops n (some (.start u)), t.at? (a ++ c.address) = some c.focus
  /-- No address comes twice, none before its start, and none between those below an earlier one. -/
  ordered : ∀ n, ((stops n (some (.start u))).map address).Pairwise fun b c => b < c
  all : ∀ b, (t.at? (a ++ b)).isSome → ∃ c ∈ stops u.size (some (.start u)), c.address = b

variable {t u : Tree} {a : Address}

theorem stops_start (n : Nat) (u : Tree) : stops n (some (.start u)) = (stations [] u).take n := by
  rw [stops_eq_take, upcoming_start]

theorem map_address_stops (n : Nat) (u : Tree) :
    (stops n (some (.start u))).map address = u.addresses.take n := by
  rw [stops_start, List.map_take, map_address_stations]
  exact congrArg _ (List.map_id _)

theorem map_focus_stops (n : Nat) (u : Tree) :
    (stops n (some (.start u))).map focus = u.preorder.take n := by
  rw [stops_start, List.map_take, map_focus_stations]

/-- A cursor stands on the node at its address. -/
theorem at?_of_mem_stops (n : Nat) :
    ∀ c ∈ stops n (some (.start u)), u.at? c.address = some c.focus := by
  apply List.map_inj_left.mp
  calc (stops n (some (.start u))).map (fun c => u.at? c.address)
      = ((stops n (some (.start u))).map address).map u.at? := (List.map_map ..).symm
    _ = (u.addresses.map u.at?).take n := by rw [map_address_stops, List.map_take]
    _ = ((stops n (some (.start u))).map focus).map some := by
      rw [map_at?_addresses, map_focus_stops, List.map_take]
    _ = (stops n (some (.start u))).map (fun c => some c.focus) := List.map_map ..

/-- A walk from a node visits the nodes of its subtree in pre-order, each of them once and no other,
and is then over for good. -/
theorem explores_at (there : t.at? a = some u) : Explores t a u where
  given n := by
    have count : (upcoming (some (.start u))).length = u.size := by
      rw [upcoming_start, ← length_preorder, ← map_focus_stations [], List.length_map]
    rw [results_eq, count]
  preorder n := map_focus_stops n u
  inside n c listed := by
    rw [at?_append there]
    exact at?_of_mem_stops n c listed
  ordered n := by
    rw [map_address_stops]
    exact (pairwise_addresses u).sublist (List.take_sublist ..)
  all b found := by
    rw [at?_append there] at found
    have listed := mem_addresses_of_at? found
    rw [← List.take_of_length_le (Nat.le_of_eq (length_addresses u)), ← map_address_stops] at listed
    exact List.mem_map.mp listed

/-- A tree whose second child has a child with a child of its own, and a twin of that one. -/
def twigs : Tree :=
  .plain "a" 0 9 none
    [.plain "b" 0 2 none [],
      .plain "c" 2 7 none [.plain "d" 2 4 none [.plain "e" 2 4 none []], .plain "e" 4 7 none []],
      .plain "f" 7 9 none []]

/-- From the second child the walk climbs two levels to its last node and never meets the third. -/
theorem explores_twigs : ∃ u, twigs.at? [1] = some u ∧ Explores twigs [1] u ∧
    (stops 9 (some (.start u))).map address = [[], [0], [0, 0], [1]] ∧
    (results 6 (some (.start u))).map (fun found => found.map kind) =
      [some "c", some "d", some "e", some "e", none, none] :=
  ⟨_, rfl, explores_at rfl, rfl, rfl⟩

end Cursor

end CodeSearch
