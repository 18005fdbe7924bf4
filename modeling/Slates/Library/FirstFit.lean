import Mathlib

/-!
First fit. Each element joins the first group that has room and nothing of its colour, or starts a
group. Elements of different colours fill the groups in their order (`chunked_groups`).
-/

namespace Slates.FirstFit

variable {α δ : Type} [DecidableEq δ] (colour : α → δ) (room : Nat)

/-- `x` joins the first group that takes it. -/
def place (x : α) : List (List α) → List (List α)
  | [] => [[x]]
  | g :: gs =>
    if g.length < room ∧ ∀ y ∈ g, colour y ≠ colour x then (g ++ [x]) :: gs
    else g :: place x gs

def groups (xs : List α) : List (List α) := xs.foldl (fun gs x => place colour room x gs) []

variable {colour room}

@[simp] theorem groups_nil : groups colour room [] = [] := rfl

theorem groups_concat (xs : List α) (x : α) :
    groups colour room (xs ++ [x]) = place colour room x (groups colour room xs) := by
  rw [groups, List.foldl_append]
  rfl

theorem perm_flatten_place (x : α) (gs : List (List α)) :
    (place colour room x gs).flatten.Perm (gs.flatten ++ [x]) := by
  induction gs with
  | nil => exact .refl _
  | cons g gs ih =>
    rw [place]
    split
    · simp only [List.flatten_cons, List.append_assoc]
      exact (List.perm_append_comm).append_left g
    · simp only [List.flatten_cons, List.append_assoc]
      exact ih.append_left g

theorem perm_flatten_groups (xs : List α) : (groups colour room xs).flatten.Perm xs := by
  induction xs using List.reverseRecOn with
  | nil => exact .refl _
  | append_singleton xs x ih =>
    rw [groups_concat]
    exact (perm_flatten_place x _).trans (ih.append_right [x])

variable {gs full last : List (List α)} {xs g : List α}

theorem place_forall {P : List α → Prop} {x : α} (h : ∀ g ∈ gs, P g) (hstart : P [x])
    (hjoin : ∀ g, P g → g.length < room → (∀ y ∈ g, colour y ≠ colour x) → P (g ++ [x])) :
    ∀ g ∈ place colour room x gs, P g := by
  induction gs with
  | nil => simpa [place] using hstart
  | cons g gs ih =>
    have hg : P g := h g (List.mem_cons_self ..)
    have hgs : ∀ g' ∈ gs, P g' := fun g' hg' => h g' (List.mem_cons_of_mem _ hg')
    rw [place]
    split
    · rename_i hfits
      exact List.forall_mem_cons.mpr ⟨hjoin g hg hfits.1 hfits.2, hgs⟩
    · exact List.forall_mem_cons.mpr ⟨hg, ih hgs⟩

theorem groups_forall {P : List α → Prop} (hstart : ∀ x, P [x])
    (hjoin : ∀ g x, P g → g.length < room → (∀ y ∈ g, colour y ≠ colour x) → P (g ++ [x]))
    (xs : List α) : ∀ g ∈ groups colour room xs, P g := by
  induction xs using List.reverseRecOn with
  | nil => simp
  | append_singleton xs x ih =>
    rw [groups_concat]
    exact place_forall ih (hstart x) fun g => hjoin g x

theorem nodup_of_mem_groups : ∀ g ∈ groups colour room xs, (g.map colour).Nodup := by
  refine groups_forall (fun x => by simp) (fun g x hg _ hx => ?_) xs
  rw [List.map_append, List.map_singleton]
  refine List.nodup_append'.mpr ⟨hg, List.nodup_singleton _, ?_⟩
  rw [List.disjoint_singleton, List.mem_map]
  rintro ⟨y, hy, he⟩
  exact hx y hy he

theorem mem_of_mem_groups {x : α} (hg : g ∈ groups colour room xs) (hx : x ∈ g) : x ∈ xs :=
  (perm_flatten_groups xs).mem_iff.mp (List.mem_flatten.mpr ⟨g, hg, hx⟩)

theorem countP_mem_groups [BEq α] [LawfulBEq α] (xs : List α) (x : α) :
    (groups colour room xs).countP (x ∈ ·) = xs.count x := by
  rw [← (@perm_flatten_groups α δ _ colour room xs).count_eq x, List.count_flatten]
  have hcount : ∀ g ∈ groups colour room xs, g.count x = if x ∈ g then 1 else 0 := by
    intro g hg
    rw [List.Nodup.count ((nodup_of_mem_groups g hg).of_map colour)]
  generalize groups colour room xs = gs at hcount
  induction gs with
  | nil => rfl
  | cons g gs ih =>
    rw [List.countP_cons, List.map_cons, List.sum_cons, hcount g (List.mem_cons_self ..),
      ih fun g' hg' => hcount g' (List.mem_cons_of_mem _ hg')]
    by_cases hx : x ∈ g <;> simp [hx, Nat.add_comm]

/-! ## Different colours -/

/-- The groups are the elements in their order: full groups, and one that is not. -/
structure Chunked (room : Nat) (xs : List α) (gs : List (List α)) : Prop where
  exists_parts : ∃ full last, gs = full ++ last ∧ (∀ g ∈ full, g.length = room) ∧
    (last = [] ∨ ∃ g, last = [g] ∧ g ≠ [] ∧ g.length < room)
  flatten : gs.flatten = xs

theorem place_of_full {rest : List (List α)} (hfull : ∀ g ∈ full, g.length = room) (x : α) :
    place colour room x (full ++ rest) = full ++ place colour room x rest := by
  induction full with
  | nil => rfl
  | cons g full ih =>
    have hlen := hfull g (List.mem_cons_self ..)
    rw [List.cons_append, place, if_neg (by omega),
      ih fun g' hg' => hfull g' (List.mem_cons_of_mem _ hg'), List.cons_append]

theorem Chunked.place {x : α} (h : Chunked room xs gs) (hroom : 0 < room)
    (hx : ∀ y ∈ xs, colour y ≠ colour x) : Chunked room (xs ++ [x]) (place colour room x gs) := by
  obtain ⟨⟨full, last, rfl, hfull, hlast⟩, rfl⟩ := h
  rw [place_of_full hfull]
  -- a group that is full after taking `x` joins the full ones
  have hjoin : ∀ g : List α, g ≠ [] → g.length ≤ room →
      Chunked room (full.flatten ++ g) (full ++ [g]) := by
    intro g hne hle
    refine ⟨?_, by simp⟩
    rcases Nat.lt_or_eq_of_le hle with hlt | heq
    · exact ⟨full, [g], rfl, hfull, .inr ⟨g, rfl, hne, hlt⟩⟩
    · refine ⟨full ++ [g], [], by simp, ?_, .inl rfl⟩
      intro g' hg'
      rcases List.mem_append.mp hg' with hg' | hg'
      · exact hfull g' hg'
      · rw [List.mem_singleton.mp hg', heq]
  rcases hlast with rfl | ⟨g, rfl, hne, hlt⟩
  · have hnew := hjoin [x] (by simp) hroom
    simpa [FirstFit.place] using hnew
  · have hfits : ∀ y ∈ g, colour y ≠ colour x := fun y hy => hx y (by simp [hy])
    have hnew := hjoin (g ++ [x]) (by simp) (by simpa using hlt)
    rw [FirstFit.place, if_pos ⟨hlt, hfits⟩]
    simpa using hnew

/-- **Elements of different colours** fill the groups in their order. -/
theorem chunked_groups (hroom : 0 < room) (hxs : (xs.map colour).Nodup) :
    Chunked room xs (groups colour room xs) := by
  induction xs using List.reverseRecOn with
  | nil => exact ⟨⟨[], [], rfl, by simp, .inl rfl⟩, rfl⟩
  | append_singleton xs x ih =>
    rw [List.map_append, List.map_singleton, List.nodup_append'] at hxs
    rw [groups_concat]
    refine (ih hxs.1).place hroom fun y hy he => hxs.2.2 (List.mem_map_of_mem hy) ?_
    simp [he]

theorem flatten_full (hfull : ∀ g ∈ full, g.length = room) :
    full.flatten.length = room * full.length := by
  rw [List.length_flatten, List.map_congr_left hfull, List.map_const', List.sum_replicate,
    smul_eq_mul, Nat.mul_comm]

theorem head?_parts (hroom : 0 < room) (hfull : ∀ g ∈ full, g.length = room)
    (hlast : last = [] ∨ ∃ g, last = [g] ∧ g ≠ []) {i : Nat} (hi : i ≤ full.length) :
    (full ++ last)[i]?.bind List.head? = (full ++ last).flatten[room * i]? := by
  induction full generalizing i with
  | nil =>
    have hi0 : i = 0 := by simpa using hi
    subst hi0
    rcases hlast with rfl | ⟨g, rfl, -⟩ <;> simp [List.head?_eq_getElem?]
  | cons g full ih =>
    have hlen := hfull g (List.mem_cons_self ..)
    have hrest := fun g' hg' => hfull g' (List.mem_cons_of_mem _ hg')
    cases i with
    | zero =>
      rw [List.cons_append, List.getElem?_cons_zero, Option.bind_some, Nat.mul_zero,
        List.flatten_cons, List.getElem?_append_left (by omega), List.head?_eq_getElem?]
    | succ i =>
      have hpast : g.length ≤ room * (i + 1) := by rw [hlen, Nat.mul_succ]; omega
      rw [List.cons_append, List.getElem?_cons_succ, ih hrest (by simpa using hi),
        List.flatten_cons, List.getElem?_append_right hpast, hlen, Nat.mul_succ,
        Nat.add_sub_cancel]

theorem length_div_room (hroom : 0 < room) (hfull : ∀ g ∈ full, g.length = room)
    (hlast : last = [] ∨ ∃ g, last = [g] ∧ g ≠ [] ∧ g.length < room) :
    (full ++ last).flatten.length / room = full.length := by
  have hlt : last.flatten.length < room := by
    rcases hlast with rfl | ⟨g, rfl, -, hlt⟩
    · simpa using hroom
    · simpa using hlt
  rw [List.flatten_append, List.length_append, flatten_full hfull, Nat.mul_add_div hroom,
    Nat.div_eq_of_lt hlt, Nat.add_zero]

/-- **The remainder**, and when the group before it is full. -/
theorem Chunked.full_iff {κ : Type} [LinearOrder κ] (h : Chunked room xs gs) (hroom : 0 < room)
    (key : α → κ) (hkey : (xs.map key).Nodup) (hg : g ∈ gs)
    (hmax : ∀ g' ∈ gs, ∀ x' ∈ g'.head?, ∀ x ∈ g.head?, key x' ≤ key x) :
    g.length = room ↔ room ∣ xs.length ∨ ∃ i < xs.length / room, ∃ first last,
      xs[room * i]? = some first ∧ xs[room * (xs.length / room)]? = some last ∧
        key last < key first := by
  obtain ⟨⟨full, last, rfl, hfull, hlast⟩, rfl⟩ := h
  have hn := length_div_room hroom hfull hlast
  have hhead := fun {i : Nat} (hi : i ≤ full.length) =>
    head?_parts hroom hfull (hlast.imp_right fun ⟨g, hg⟩ => ⟨g, hg.1, hg.2.1⟩) hi
  rw [hn]
  rcases hlast with rfl | ⟨r, rfl, hne, hlt⟩
  · have hdvd : room ∣ (full ++ []).flatten.length := by
      rw [List.append_nil, flatten_full hfull]
      exact Nat.dvd_mul_right ..
    exact ⟨fun _ => .inl hdvd, fun _ => hfull g (by simpa using hg)⟩
  obtain ⟨x, r, rfl⟩ := List.exists_cons_of_ne_nil hne
  have hlast : (full ++ [x :: r]).flatten[room * full.length]? = some x := by
    rw [← hhead le_rfl]
    simp
  constructor
  · intro hlen
    have hin : g ∈ full := by
      rcases List.mem_append.mp hg with hin | hin
      · exact hin
      · rw [List.mem_singleton.mp hin] at hlen
        omega
    obtain ⟨i, hi, rfl⟩ := List.mem_iff_getElem.mp hin
    obtain ⟨first, hfirst⟩ : ∃ first, full[i].head? = some first := by
      cases hcases : full[i] with
      | nil =>
        rw [hcases] at hlen
        exact absurd hlen hroom.ne
      | cons first _ => exact ⟨first, rfl⟩
    have hat : (full ++ [x :: r]).flatten[room * i]? = some first := by
      rw [← hhead hi.le, List.getElem?_append_left hi, List.getElem?_eq_getElem hi]
      exact hfirst
    refine .inr ⟨i, hi, first, x, hat, hlast, lt_of_le_of_ne ?_ fun heq => ?_⟩
    · exact hmax (x :: r) (by simp) x rfl first hfirst
    · -- the two stand at different places, and no key is there twice
      have hsame : ((full ++ [x :: r]).flatten.map key)[room * full.length]? =
          ((full ++ [x :: r]).flatten.map key)[room * i]? := by
        rw [List.getElem?_map, List.getElem?_map, hlast, hat, Option.map_some, Option.map_some, heq]
      have hbound : room * full.length < ((full ++ [x :: r]).flatten.map key).length := by
        rw [List.length_map]
        exact (List.getElem?_eq_some_iff.mp hlast).1
      have hindex := (List.getElem?_inj hbound hkey).mp hsame
      exact absurd (Nat.eq_of_mul_eq_mul_left hroom hindex) hi.ne'
  · rintro (hdvd | ⟨i, hi, first, last, hfirst, hlast', hkeys⟩)
    · exfalso
      rw [List.flatten_append, List.length_append, flatten_full hfull,
        ← Nat.dvd_add_iff_right (Nat.dvd_mul_right ..)] at hdvd
      have hle := Nat.le_of_dvd (by simp) hdvd
      simp only [List.flatten_singleton] at hle
      omega
    · rw [hlast'] at hlast
      cases hlast
      have hhead_i := hhead hi.le
      rw [hfirst, List.getElem?_append_left hi, List.getElem?_eq_getElem hi, Option.bind_some]
        at hhead_i
      rcases List.mem_append.mp hg with hin | hin
      · exact hfull g hin
      · rw [List.mem_singleton.mp hin] at hmax
        have hle := hmax full[i] (by simp) first hhead_i x rfl
        exact absurd hkeys (not_lt.mpr hle)

end Slates.FirstFit
