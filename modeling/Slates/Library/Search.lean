import Mathlib

/-!
Search of a finite graph: `reachable` finds exactly the nodes on its paths (`mem_reachable`).
-/

open Relation (ReflTransGen)

namespace Slates.Search

variable {K : Type} [DecidableEq K] (next : K → Option (List K))

/-- The nodes seen once the stack is empty; a node's last neighbour is on top. -/
def visit : Nat → List K → List K → List K
  | 0, seen, _ => seen
  | _ + 1, seen, [] => seen
  | fuel + 1, seen, k :: stack =>
    if k ∈ seen then visit fuel seen stack
    else
      match next k with
      | none => visit fuel seen stack
      | some ks => visit fuel (seen ++ [k]) (ks.reverse ++ stack)

/-- The pushes still to come. -/
def cost (nodes seen : List K) : Nat :=
  ((nodes.filter (· ∉ seen)).map fun k => ((next k).getD []).length).sum

/-- What `start` leads to in a graph with these nodes. -/
def reachable (nodes : List K) (start : K) : List K :=
  visit next (1 + cost next nodes []) [] [start]

def Edge (a b : K) : Prop := ∃ ks, next a = some ks ∧ b ∈ ks ∧ (next b).isSome

variable {next}

variable {nodes seen stack : List K}

theorem cost_seen {k : K} {ks : List K} (hnodup : nodes.Nodup) (hk : k ∈ nodes) (hnot : k ∉ seen)
    (hks : next k = some ks) :
    cost next nodes (seen ++ [k]) + ks.length = cost next nodes seen := by
  have hsplit : (nodes.filter (· ∉ seen)).Perm (k :: nodes.filter (· ∉ seen ++ [k])) := by
    have hin : k ∈ nodes.filter (· ∉ seen) := List.mem_filter.mpr ⟨hk, by simpa using hnot⟩
    refine (List.perm_cons_erase hin).trans (List.Perm.cons k (List.Perm.of_eq ?_))
    rw [(hnodup.filter _).erase_eq_filter, List.filter_filter]
    refine List.filter_congr fun x _ => ?_
    by_cases hx : x = k <;> simp [hx, hnot]
  rw [cost, cost, (hsplit.map _).sum_eq, List.map_cons, List.sum_cons, hks, Option.getD_some,
    Nat.add_comm]

omit [DecidableEq K] in
theorem reach_of_seen (hseen : ∀ a ∈ seen, ∀ b, Edge next a b → b ∈ seen ∨ b ∈ stack) {a x : K}
    (ha : a ∈ seen) (hpath : ReflTransGen (Edge next) a x) :
    x ∈ seen ∨ ∃ k ∈ stack, (next k).isSome ∧ ReflTransGen (Edge next) k x := by
  induction hpath using ReflTransGen.head_induction_on with
  | refl => exact .inl ha
  | head hedge hrest ih =>
    rcases hseen _ ha _ hedge with hb | hb
    · exact ih hb
    · obtain ⟨_, -, -, hsome⟩ := hedge
      exact .inr ⟨_, hb, hsome, hrest⟩

theorem mem_visit (hnodup : nodes.Nodup) (hnodes : ∀ k, (next k).isSome → k ∈ nodes) {fuel : Nat}
    (hfuel : stack.length + cost next nodes seen ≤ fuel)
    (hseen : ∀ a ∈ seen, ∀ b, Edge next a b → b ∈ seen ∨ b ∈ stack) (x : K) :
    x ∈ visit next fuel seen stack ↔
      x ∈ seen ∨ ∃ k ∈ stack, (next k).isSome ∧ ReflTransGen (Edge next) k x := by
  induction fuel generalizing seen stack with
  | zero =>
    have hnil : stack = [] := List.length_eq_zero_iff.mp (by omega)
    simp [visit, hnil]
  | succ fuel ih =>
    cases stack with
    | nil => simp [visit]
    | cons k stack =>
      rw [List.length_cons] at hfuel
      rw [visit]
      split
      · -- a node seen before: what it leads to is accounted for
        rename_i hk
        have hseen' : ∀ a ∈ seen, ∀ b, Edge next a b → b ∈ seen ∨ b ∈ stack := by
          intro a ha b hb
          rcases hseen a ha b hb with h | h
          · exact .inl h
          · rcases List.mem_cons.mp h with rfl | h
            · exact .inl hk
            · exact .inr h
        rw [ih (by omega) hseen']
        constructor
        · rintro (h | ⟨y, hy, h⟩)
          · exact .inl h
          · exact .inr ⟨y, List.mem_cons_of_mem _ hy, h⟩
        · rintro (h | ⟨y, hy, hsome, hpath⟩)
          · exact .inl h
          · rcases List.mem_cons.mp hy with rfl | hy
            · exact reach_of_seen hseen' hk hpath
            · exact .inr ⟨y, hy, hsome, hpath⟩
      · rename_i hk
        cases hnext : next k with
        | none =>
          have hseen' : ∀ a ∈ seen, ∀ b, Edge next a b → b ∈ seen ∨ b ∈ stack := by
            rintro a ha b ⟨ks, hks, hb, hsome⟩
            rcases hseen a ha b ⟨ks, hks, hb, hsome⟩ with h | h
            · exact .inl h
            · rcases List.mem_cons.mp h with rfl | h
              · rw [hnext] at hsome
                cases hsome
              · exact .inr h
          dsimp only
          rw [ih (by omega) hseen']
          simp [hnext]
        | some ks =>
          have hcost := cost_seen hnodup (hnodes k (by simp [hnext])) hk hnext
          have hseen' : ∀ a ∈ seen ++ [k], ∀ b, Edge next a b →
              b ∈ seen ++ [k] ∨ b ∈ ks.reverse ++ stack := by
            intro a ha b hb
            rcases List.mem_append.mp ha with ha | ha
            · rcases hseen a ha b hb with h | h
              · simp [h]
              · rcases List.mem_cons.mp h with rfl | h <;> simp_all
            · obtain ⟨ks', hks', hin, -⟩ := hb
              rw [List.mem_singleton.mp ha, hnext] at hks'
              cases hks'
              simp [hin]
          dsimp only
          rw [ih (by simp only [List.length_append, List.length_reverse]; omega) hseen']
          constructor
          · rintro (h | ⟨y, hy, hsome, hpath⟩)
            · rcases List.mem_append.mp h with h | h
              · exact .inl h
              · rw [List.mem_singleton.mp h]
                exact .inr ⟨k, List.mem_cons_self .., by simp [hnext], .refl⟩
            · rcases List.mem_append.mp hy with hy | hy
              · exact .inr ⟨k, List.mem_cons_self .., by simp [hnext],
                  .head ⟨ks, hnext, List.mem_reverse.mp hy, hsome⟩ hpath⟩
              · exact .inr ⟨y, List.mem_cons_of_mem _ hy, hsome, hpath⟩
          · rintro (h | ⟨y, hy, hsome, hpath⟩)
            · simp [h]
            · rcases List.mem_cons.mp hy with rfl | hy
              · exact reach_of_seen hseen' (by simp) hpath
              · exact .inr ⟨y, by simp [hy], hsome, hpath⟩

/-- **The search finds the nodes on the graph's paths.** -/
theorem mem_reachable (hnodup : nodes.Nodup) (hnodes : ∀ k, (next k).isSome → k ∈ nodes)
    (start x : K) :
    x ∈ reachable next nodes start ↔
      (next start).isSome ∧ ReflTransGen (Edge next) start x := by
  rw [reachable, mem_visit hnodup hnodes (by simp) (by simp)]
  simp

omit [DecidableEq K] in
theorem reach_congr {next' : K → Option (List K)} {start : K}
    (hsame : ∀ k, ReflTransGen (Edge next) start k → next' k = next k)
    (hclosed : ∀ k ks, next k = some ks → ∀ b ∈ ks, (next b).isSome) (x : K) :
    ReflTransGen (Edge next') start x ↔ ReflTransGen (Edge next) start x := by
  constructor
  · intro hpath
    induction hpath with
    | refl => exact .refl
    | tail _ hedge ih =>
      obtain ⟨ks, hks, hin, -⟩ := hedge
      rw [hsame _ ih] at hks
      exact ih.tail ⟨ks, hks, hin, hclosed _ ks hks _ hin⟩
  · intro hpath
    induction hpath with
    | refl => exact .refl
    | tail hpath hedge ih =>
      obtain ⟨ks, hks, hin, hsome⟩ := hedge
      refine ih.tail ⟨ks, by rw [hsame _ hpath, hks], hin, ?_⟩
      rw [hsame _ (hpath.tail ⟨ks, hks, hin, hsome⟩)]
      exact hsome

end Slates.Search
