import CodeSearch.Tree.Cursor

/-! # The walk is the pre-order

What a walk has still to visit is the subtree of the node it stands on and then the siblings
that the way down left for later. A step of the walk takes the first node off this list.
-/

namespace CodeSearch

namespace Tree

mutual

theorem length_preorder : ∀ t : Tree, t.preorder.length = t.size
  | node l cs => by
    simp only [preorder, size, List.length_cons, length_preorders cs]
    omega

theorem length_preorders : ∀ ts : List Tree, (preorders ts).length = sizes ts
  | [] => rfl
  | t :: ts => by
    rw [preorders, sizes, List.length_append, length_preorder t, length_preorders ts]

end

theorem preorder_eq (t : Tree) : t.preorder = t :: preorders t.children := by
  cases t with
  | node l cs => rw [preorder, children]

end Tree

namespace Cursor

open CodeSearch.Tree

mutual

/-- The cursors on the nodes of a tree in pre-order, below the way down to it. -/
def stations (trail : Trail) : Tree → List Cursor
  | node l cs => ⟨node l cs, trail⟩ :: stationsIn trail (node l cs) cs

/-- The cursors on the nodes of the last children of a node. -/
def stationsIn (trail : Trail) (up : Tree) : List Tree → List Cursor
  | [] => []
  | t :: ts => stations ((up, ts) :: trail) t ++ stationsIn trail up ts

end

mutual

theorem map_focus_stations (trail : Trail) : ∀ t : Tree,
    (stations trail t).map focus = t.preorder
  | node l cs => by rw [stations, preorder, List.map_cons, map_focus_stationsIn trail _ cs]

theorem map_focus_stationsIn (trail : Trail) (up : Tree) : ∀ ts : List Tree,
    (stationsIn trail up ts).map focus = preorders ts
  | [] => rfl
  | t :: ts => by
    rw [stationsIn, preorders, List.map_append, map_focus_stations _ t,
      map_focus_stationsIn trail up ts]

end

theorem stations_eq (c : Cursor) :
    stations c.trail c.focus = c :: stationsIn c.trail c.focus c.focus.children := by
  obtain ⟨⟨l, cs⟩, trail⟩ := c
  rw [stations, children]

/-- The cursors on the nodes that a way down leaves for later. -/
def postponed : Trail → List Cursor
  | [] => []
  | (up, ts) :: trail => stationsIn trail up ts ++ postponed trail

/-- The cursors on the nodes that a walk has still to visit. -/
def upcoming : Walk → List Cursor
  | none => []
  | some c => stations c.trail c.focus ++ postponed c.trail

theorem upcoming_climb (trail : Trail) (t : Tree) :
    upcoming (climb trail t) = postponed trail := by
  induction trail generalizing t with
  | nil => rfl
  | cons step trail ih =>
    obtain ⟨up, ts⟩ := step
    cases ts with
    | nil => simpa [climb, nextSibling?, postponed, stationsIn] using ih up
    | cons u us => simp [climb, nextSibling?, postponed, upcoming, stationsIn]

theorem upcoming_advance (c : Cursor) :
    upcoming c.advance = stationsIn c.trail c.focus c.focus.children ++ postponed c.trail := by
  obtain ⟨t, trail⟩ := c
  cases hc : t.children with
  | nil => simpa [advance, firstChild?, hc, stationsIn] using upcoming_climb trail t
  | cons u us => simp [advance, firstChild?, hc, upcoming, postponed, stationsIn]

/-- The cursors of the next visits of a walk, at most `n` of them. -/
def stops : Nat → Walk → List Cursor
  | 0, _ => []
  | _ + 1, none => []
  | n + 1, some c => c :: stops n c.advance

theorem stops_eq_take (n : Nat) (w : Walk) : stops n w = (upcoming w).take n := by
  induction n generalizing w with
  | zero => simp [stops]
  | succ n ih =>
    cases w with
    | none => simp [stops, upcoming]
    | some c =>
      have hc := upcoming_advance c
      simp only [stops, upcoming, stations_eq, List.cons_append, List.take_succ_cons]
      rw [ih, hc]

theorem visits_eq_map_stops (n : Nat) (w : Walk) : visits n w = (stops n w).map focus := by
  induction n generalizing w with
  | zero => rfl
  | succ n ih =>
    cases w with
    | none => rfl
    | some c => simp [visits, next?, stops, ih]

theorem upcoming_start (t : Tree) : upcoming (some (.start t)) = stations [] t :=
  List.append_nil _

end Cursor

theorem Tree.walk_eq_preorder (t : Tree) : t.walk = t.preorder := by
  rw [walk, Cursor.visits_eq_map_stops, Cursor.stops_eq_take, Cursor.upcoming_start, List.map_take,
    Cursor.map_focus_stations, List.take_of_length_le (Nat.le_of_eq (length_preorder t))]

end CodeSearch
