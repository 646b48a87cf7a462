/-!
# Reachability in a finite graph

The nodes reachable from a list of seeds by the edges `next`, within a finite domain. Each
step visits one node of the domain that is pending and not yet visited, and removes it from
the domain, so the search ends when the domain is used up or nothing pending is left in it.
-/

namespace SimpleLR

/-- The nodes of `remaining` reachable from `pending` through nodes of `remaining`, each once,
in the order visited. -/
def reach {α : Type} [DecidableEq α] (next : α → List α) (remaining pending : List α) : List α :=
  match _found : pending.find? remaining.contains with
  | none => []
  | some node => node :: reach next (remaining.erase node) (next node ++ pending)
termination_by remaining.length
decreasing_by
  have mem : node ∈ remaining := List.contains_iff_mem.mp (List.find?_some _found)
  have shorter := List.length_erase_of_mem mem
  have pos := List.length_pos_of_mem mem
  omega

/-- A node reachable from the seeds by a path of edges whose nodes all lie in the domain. -/
inductive Reaches {α : Type} (next : α → List α) (domain seeds : List α) : α → Prop where
  | seed {x : α} : x ∈ domain → x ∈ seeds → Reaches next domain seeds x
  | step {x y : α} : Reaches next domain seeds x → y ∈ domain → y ∈ next x →
      Reaches next domain seeds y

example : reach (fun n => [n + 1]) (List.range 5) [2] = [2, 3, 4] := by
  cbv

end SimpleLR
