import Slates.Library.Chains
import Slates.Library.Runs
import Slates.Register.Region

/-!
The root configuration: the regions, the volumes whose home has moved, and the region promoted for
each lost one. A volume is served from its home, or from where its home's promotions lead.
-/

open Std (ExtTreeMap)

namespace Slates.Register

open Chains (Leads)

abbrev RegionId := UInt64

structure RootConfiguration where
  version : Nat
  regions : List RegionId
  homes : ExtTreeMap ObjectId RegionId
  promotions : ExtTreeMap RegionId RegionId

namespace RootConfiguration

def formed (regions : List RegionId) : RootConfiguration where
  version := 0
  regions := (regions.insertionSort (· ≤ ·)).dedup
  homes := ∅
  promotions := ∅

/-! Each change answers whether it changed anything. -/

def admitRegion (root : RootConfiguration) (region : RegionId) : RootConfiguration × Bool :=
  if region ∈ root.regions then (root, false)
  else
    (checkedSucc root.version).elim (root, false) fun version =>
      ({ root with regions := (root.regions ++ [region]).insertionSort (· ≤ ·), version }, true)

/-- The lost region leaves, and is served from its mirror. -/
def promoteRegion (root : RootConfiguration) (region mirror : RegionId) :
    RootConfiguration × Bool :=
  if region = mirror ∨ region ∉ root.regions ∨ mirror ∉ root.regions then (root, false)
  else
    (checkedSucc root.version).elim (root, false) fun version =>
      ({ root with
        regions := root.regions.filter (· ≠ region)
        promotions := root.promotions.insert region mirror
        version }, true)

def moveHome (root : RootConfiguration) (volume : ObjectId) (region : RegionId) :
    RootConfiguration × Bool :=
  if region ∉ root.regions ∨ root.homes[volume]? = some region then (root, false)
  else
    (checkedSucc root.version).elim (root, false) fun version =>
      ({ root with homes := root.homes.insert volume region, version }, true)

/-- Promotions followed while they lead elsewhere. -/
def promotedWithin (root : RootConfiguration) : Nat → RegionId → RegionId
  | 0, region => region
  | steps + 1, region =>
    match root.promotions[region]? with
    | some next => if next ≠ region then root.promotedWithin steps next else region
    | none => region

def home (root : RootConfiguration) (volume : ObjectId) (creator : RegionId) : RegionId :=
  root.homes[volume]?.getD creator

/-- As many promotions are followed as there are. -/
def homeOf (root : RootConfiguration) (volume : ObjectId) (creator : RegionId) : RegionId :=
  root.promotedWithin root.promotions.size (root.home volume creator)

end RootConfiguration

inductive RootChange where
  | admitRegion (region : RegionId)
  | promoteRegion (region mirror : RegionId)
  | moveHome (volume : ObjectId) (region : RegionId)
  deriving DecidableEq

namespace RootConfiguration

def apply (root : RootConfiguration) : RootChange → RootConfiguration
  | .admitRegion region => (root.admitRegion region).1
  | .promoteRegion region mirror => (root.promoteRegion region mirror).1
  | .moveHome volume region => (root.moveHome volume region).1

def run (root : RootConfiguration) (changes : List RootChange) : RootConfiguration :=
  changes.foldl apply root

/-- Where the change sends volumes is not promoted away: a region admitted again still is. -/
def SendsToFinal (root : RootConfiguration) : RootChange → Prop
  | .admitRegion _ => True
  | .promoteRegion _ mirror => mirror ∉ root.promotions
  | .moveHome _ region => region ∉ root.promotions

instance (root : RootConfiguration) (change : RootChange) :
    Decidable (root.SendsToFinal change) := by
  cases change <;> unfold SendsToFinal <;> infer_instance

/-- Every volume whose home is a member or was promoted away is served from a member, one moved to a
region not promoted away from there. -/
structure Routes (root : RootConfiguration) : Prop where
  served : ∀ volume creator,
    (root.home volume creator ∈ root.regions ∨ root.home volume creator ∈ root.promotions) →
      root.homeOf volume creator ∈ root.regions
  moved : ∀ volume creator region, root.SendsToFinal (.moveHome volume region) →
    (root.moveHome volume region).2 = true →
      (root.moveHome volume region).1.homeOf volume creator = region

/-! ## What the changes keep -/

/-- Promotions lead from every region to a member, in no more steps than there are. -/
def Led (root : RootConfiguration) : Prop :=
  ∀ region, region ∈ root.regions ∨ region ∈ root.promotions →
    ∃ n ≤ root.promotions.size, ∃ last ∈ root.regions, Leads (root.promotions[·]?) n region last

variable {root : RootConfiguration}

theorem promotedWithin_of_leads {n steps : Nat} {region last : RegionId}
    (h : Leads (root.promotions[·]?) n region last) (hn : n ≤ steps) :
    root.promotedWithin steps region = last := by
  induction h generalizing steps with
  | done h =>
    cases steps with
    | zero => rfl
    | succ steps => rw [promotedWithin, h]
  | step h hrest ih =>
    cases steps with
    | zero => omega
    | succ steps =>
      have hne := (Leads.step h hrest).next_ne h
      rw [promotedWithin, h]
      dsimp only
      rw [if_pos hne]
      exact ih (by omega)

theorem Led.routes (h : root.Led) : root.Routes where
  served volume creator hhome := by
    obtain ⟨n, hn, last, hlast, hleads⟩ := h _ hhome
    rw [homeOf, promotedWithin_of_leads hleads hn]
    exact hlast
  moved volume creator region hfinal hmoved := by
    rw [moveHome] at hmoved ⊢
    split_ifs at hmoved ⊢ with hrefused
    push Not at hrefused
    cases hversion : checkedSucc root.version with
    | none => simp [hversion] at hmoved
    | some version =>
      have hstop : root.promotions[region]? = none := ExtTreeMap.getElem?_eq_none hfinal
      rw [Option.elim_some, homeOf, home]
      dsimp only
      rw [ExtTreeMap.getElem?_insert_self, Option.getD_some]
      exact promotedWithin_of_leads (.done hstop) (Nat.zero_le _)

theorem led_formed (regions : List RegionId) : (formed regions).Led := by
  rintro region (hmember | hlost)
  · exact ⟨0, Nat.zero_le _, region, hmember, .done ExtTreeMap.getElem?_empty⟩
  · exact absurd hlost ExtTreeMap.not_mem_empty

theorem Led.admitRegion (h : root.Led) (region : RegionId) : (root.admitRegion region).1.Led := by
  rw [RootConfiguration.admitRegion]
  split_ifs with hmember
  · exact h
  cases checkedSucc root.version with
  | none => exact h
  | some version =>
    intro r hr
    have hstays : ∀ {last : RegionId}, last ∈ root.regions →
        last ∈ (root.regions ++ [region]).insertionSort (· ≤ ·) := fun hlast =>
      (List.mem_insertionSort _).mpr (List.mem_append_left _ hlast)
    by_cases hknown : r ∈ root.regions ∨ r ∈ root.promotions
    · obtain ⟨n, hn, last, hlast, hleads⟩ := h r hknown
      exact ⟨n, hn, last, hstays hlast, hleads⟩
    · -- the region admitted, which nobody knew
      push Not at hknown
      exact ⟨0, Nat.zero_le _, r, hr.resolve_right hknown.2,
        .done (ExtTreeMap.getElem?_eq_none hknown.2)⟩

theorem Led.promoteRegion (h : root.Led) (region : RegionId) {mirror : RegionId}
    (hfinal : mirror ∉ root.promotions) : (root.promoteRegion region mirror).1.Led := by
  rw [RootConfiguration.promoteRegion]
  split_ifs with hrefused
  · exact h
  push Not at hrefused
  obtain ⟨hne, hregion, hmirror⟩ := hrefused
  cases checkedSucc root.version with
  | none => exact h
  | some version =>
    have hkept : mirror ∈ root.regions.filter (· ≠ region) :=
      List.mem_filter.mpr ⟨hmirror, decide_eq_true hne.symm⟩
    have hstop : (root.promotions.insert region mirror)[mirror]? = none := by
      rw [getElem?_insert_if, if_neg hne, ExtTreeMap.getElem?_eq_none hfinal]
    have hsame : ∀ v, v ≠ region →
        (root.promotions.insert region mirror)[v]? = root.promotions[v]? := fun v hv => by
      rw [getElem?_insert_if, if_neg hv.symm]
    rw [Option.elim_some]
    intro r hr
    have hold : r ∈ root.regions ∨ r ∈ root.promotions := by
      rcases hr with hr | hr
      · exact .inl (List.mem_of_mem_filter hr)
      · rcases ExtTreeMap.mem_insert.mp hr with heq | hlost
        · exact .inl (Std.compare_eq_iff_eq.mp heq ▸ hregion)
        · exact .inr hlost
    obtain ⟨n, hn, last, hlast, hleads⟩ := h r hold
    dsimp only
    rw [ExtTreeMap.size_insert]
    by_cases hagain : region ∈ root.promotions
    · -- promoted away before, and admitted again since
      rw [if_pos (ExtTreeMap.contains_iff_mem.mpr hagain)]
      have hbefore : root.promotions[region]? ≠ none :=
        Option.isSome_iff_ne_none.mp (ExtTreeMap.isSome_getElem?_iff_mem.mpr hagain)
      rcases hleads.redirected hsame hbefore ExtTreeMap.getElem?_insert_self hstop with
        ⟨hother, hleads⟩ | ⟨k, hk, hleads⟩
      · exact ⟨n, hn, last, List.mem_filter.mpr ⟨hlast, decide_eq_true hother⟩, hleads⟩
      · exact ⟨k, hk.trans hn, mirror, hkept, hleads⟩
    · rw [if_neg (by rwa [ExtTreeMap.contains_iff_mem])]
      rcases hleads.forwarded hsame (ExtTreeMap.getElem?_eq_none hagain)
        ExtTreeMap.getElem?_insert_self hstop with ⟨hother, hleads⟩ | ⟨-, hleads⟩
      · exact ⟨n, by omega, last, List.mem_filter.mpr ⟨hlast, decide_eq_true hother⟩, hleads⟩
      · exact ⟨n + 1, by omega, mirror, hkept, hleads⟩

theorem Led.moveHome (h : root.Led) (volume : ObjectId) (region : RegionId) :
    (root.moveHome volume region).1.Led := by
  rw [RootConfiguration.moveHome]
  split_ifs
  · exact h
  cases checkedSucc root.version with
  | none => exact h
  | some version => exact h

theorem Led.apply (h : root.Led) {change : RootChange} (hfinal : root.SendsToFinal change) :
    (root.apply change).Led := by
  cases change with
  | admitRegion region => exact h.admitRegion region
  | promoteRegion region mirror => exact h.promoteRegion region hfinal
  | moveHome volume region => exact h.moveHome volume region

/-- **A volume is routed to a live region** while none is promoted or moved to a region that was
promoted away before. -/
theorem routes_run (regions : List RegionId) (changes : List RootChange)
    (hfinal : Runs.Meets apply SendsToFinal (formed regions) changes) (n : Nat) :
    ((formed regions).run (changes.take n)).Routes :=
  ((hfinal.take n).invariant (fun _ _ h hc => Led.apply h hc) (led_formed regions)).routes

/-- Two regions are lost and the second admitted again. -/
def twoLosses : List RootChange :=
  [.moveHome (.new 9 1) 2, .promoteRegion 2 3, .admitRegion 2, .promoteRegion 3 1]

theorem routes_run_two_losses : ((formed [1, 2, 3]).run (twoLosses.take 4)).Routes ∧
    ((formed [1, 2, 3]).run twoLosses).homeOf (.new 9 1) 1 = 1 :=
  ⟨routes_run [1, 2, 3] twoLosses (by decide +kernel) 4, by decide +kernel⟩

/-- A region lost, admitted again and promoted to closes a cycle: a volume of the region lost then
is served from the lost region. -/
theorem readmitted_misroutes :
    ((formed [1, 2]).run [.promoteRegion 1 2, .admitRegion 1, .promoteRegion 2 1]).homeOf
        (.new 9 1) 2 = 2 ∧
      2 ∉ ((formed [1, 2]).run
        [.promoteRegion 1 2, .admitRegion 1, .promoteRegion 2 1]).regions ∧
      2 ∈ ((formed [1, 2]).run
        [.promoteRegion 1 2, .admitRegion 1, .promoteRegion 2 1]).promotions ∧
      (((formed [1, 2]).run [.promoteRegion 1 2, .admitRegion 1]).moveHome (.new 9 1) 1).2 = true ∧
      (((formed [1, 2]).run [.promoteRegion 1 2, .admitRegion 1]).moveHome (.new 9 1) 1).1.homeOf
        (.new 9 1) 1 = 2 := by
  decide +kernel

end RootConfiguration

end Slates.Register
