import Slates.Register.Placement

/-!
What a placement promises. No two candidates share a failure domain; but the copyset the remainder
of the neighbours makes is short, so an object placed on it has fewer than `2f + 1` candidates.
-/

namespace Slates.Register

/-- A neighbourhood in which every object should have all its candidates. -/
structure Rich (quorum : Quorum) (owner : HostId) (neighbourhood : List HostId)
    (domains : HostMap DomainId) : Prop where
  owner_mem : owner ∈ neighbourhood
  apart : (neighbourhood.map (domainOf domains)).Nodup
  enough : quorum.candidates ≤ neighbourhood.length

def withDomains (neighbourhood : List HostId) (domains : HostMap DomainId) :
    List (HostId × DomainId) :=
  neighbourhood.map fun host => (host, domainOf domains host)

/-- What an object's placement promises. -/
structure Sound (quorum : Quorum) (owner : HostId) (neighbourhood : List HostId)
    (domains : HostMap DomainId) (object : ObjectId) : Prop where
  full : Rich quorum owner neighbourhood domains →
    (candidatesFor owner neighbourhood domains object quorum).length = quorum.candidates ∧
      (candidatesFor owner neighbourhood domains object quorum).Nodup ∧
      (candidatesFor owner neighbourhood domains object quorum).head? = some owner
  apart : ((candidatesFor owner neighbourhood domains object quorum).map (domainOf domains)).Nodup
  covered : ∀ host ∈ neighbourhood, domainOf domains host ≠ domainOf domains owner →
    (ownerCopysets owner (withDomains neighbourhood domains) quorum).countP (host ∈ ·) = 1

/-- A rich neighbourhood leaves no remainder, or the object ranks the first host of some full
copyset above that of the remainder; the owner is in the neighbourhood and every other host is in it
once. -/
structure Placeable (quorum : Quorum) (owner : HostId) (neighbourhood : List HostId)
    (domains : HostMap DomainId) (object : ObjectId) : Prop where
  remainder : Rich quorum owner neighbourhood domains →
    quorum.f.toNat = 0 ∨ quorum.f.toNat * 2 ∣ neighbourhood.length - 1 ∨
      ∃ i < (neighbourhood.length - 1) / (quorum.f.toNat * 2), ∃ first last,
        (usableCoHolders owner (withDomains neighbourhood domains))[quorum.f.toNat * 2 * i]? =
          some first ∧
        (usableCoHolders owner (withDomains neighbourhood domains))[quorum.f.toNat * 2 *
          ((neighbourhood.length - 1) / (quorum.f.toNat * 2))]? = some last ∧
        rendezvousKey object last.1 < rendezvousKey object first.1
  owner_in : owner ∈ neighbourhood ∨ quorum.f.toNat = 0 ∨
    ∀ host ∈ neighbourhood, domainOf domains host ≠ domainOf domains owner
  once : ∀ host ∈ neighbourhood, domainOf domains host ≠ domainOf domains owner →
    0 < quorum.f.toNat ∧ neighbourhood.count host = 1

section Copysets

variable {quorum : Quorum} {owner : HostId} {neighbourhood : List HostId}
  {domains : HostMap DomainId} {object : ObjectId}

theorem find?_withDomains :
    ((withDomains neighbourhood domains).find? (·.1 == owner)).map Prod.snd =
      if owner ∈ neighbourhood then some (domainOf domains owner) else none := by
  induction neighbourhood with
  | nil => rfl
  | cons host hosts ih =>
    rw [withDomains, List.map_cons, List.find?_cons]
    by_cases h : host = owner
    · simp [h]
    · have hne : (host == owner) = false := by simpa using h
      have hmem : owner ∈ host :: hosts ↔ owner ∈ hosts := by simp [Ne.symm h]
      rw [hne, if_congr hmem rfl rfl]
      exact ih

theorem usable_perm : (usableCoHolders owner (withDomains neighbourhood domains)).Perm
    ((withDomains neighbourhood domains).filter fun h => h.1 != owner &&
      some h.2 != if owner ∈ neighbourhood then some (domainOf domains owner) else none) := by
  rw [usableCoHolders, find?_withDomains]
  exact List.perm_insertionSort _ _

variable {h : HostId × DomainId} {host : HostId} {group : List (HostId × DomainId)}

theorem mem_usable :
    h ∈ usableCoHolders owner (withDomains neighbourhood domains) ↔
      h.1 ∈ neighbourhood ∧ h.2 = domainOf domains h.1 ∧ h.1 ≠ owner ∧
        (owner ∈ neighbourhood → h.2 ≠ domainOf domains owner) := by
  have hwith : h ∈ withDomains neighbourhood domains ↔
      h.1 ∈ neighbourhood ∧ h.2 = domainOf domains h.1 := by
    simp only [withDomains, List.mem_map]
    constructor
    · rintro ⟨host, hin, rfl⟩
      exact ⟨hin, rfl⟩
    · rintro ⟨hin, hdomain⟩
      exact ⟨h.1, hin, by rw [← hdomain]⟩
  rw [usable_perm.mem_iff, List.mem_filter, hwith, Bool.and_eq_true, and_assoc]
  by_cases howner : owner ∈ neighbourhood <;> simp [howner]

theorem count_usable (hne : domainOf domains host ≠ domainOf domains owner) :
    (usableCoHolders owner (withDomains neighbourhood domains)).count
      (host, domainOf domains host) = neighbourhood.count host := by
  have hinj : Function.Injective fun host => (host, domainOf domains host) :=
    fun _ _ h => congrArg Prod.fst h
  have hhost : host ≠ owner := fun h => hne (by rw [h])
  rw [usable_perm.count_eq, List.count_filter, withDomains,
    ← List.count_map_of_injective neighbourhood _ hinj]
  by_cases howner : owner ∈ neighbourhood <;> simp [howner, hhost, hne]

/-! ## Copysets -/

def coHolderGroups (quorum : Quorum) (owner : HostId) (neighbourhood : List HostId)
    (domains : HostMap DomainId) : List (List (HostId × DomainId)) :=
  FirstFit.groups Prod.snd (quorum.f.toNat * 2)
    (usableCoHolders owner (withDomains neighbourhood domains))

theorem ownerCopysets_of_zero (hf : quorum.f.toNat = 0) :
    ownerCopysets owner (withDomains neighbourhood domains) quorum = [[owner]] := by
  rw [ownerCopysets]
  exact if_pos (by rw [Quorum.candidates, hf])

theorem ownerCopysets_of_pos (hf : 0 < quorum.f.toNat) :
    ownerCopysets owner (withDomains neighbourhood domains) quorum =
      if (coHolderGroups quorum owner neighbourhood domains).isEmpty then [[owner]]
      else (coHolderGroups quorum owner neighbourhood domains).map
        fun group => owner :: group.map Prod.fst := by
  rw [ownerCopysets]
  exact if_neg (by rw [Quorum.candidates]; omega)

theorem mem_usable_of_mem_group (hgroup : group ∈ coHolderGroups quorum owner neighbourhood domains)
    (hh : h ∈ group) : h ∈ usableCoHolders owner (withDomains neighbourhood domains) :=
  FirstFit.mem_of_mem_groups hgroup hh

theorem map_domainOf_group (hgroup : group ∈ coHolderGroups quorum owner neighbourhood domains) :
    (group.map Prod.fst).map (domainOf domains) = group.map Prod.snd := by
  rw [List.map_map]
  exact List.map_congr_left fun h hh =>
    (mem_usable.mp (mem_usable_of_mem_group hgroup hh)).2.1.symm

theorem candidatesFor_cases :
    candidatesFor owner neighbourhood domains object quorum = [owner] ∧
        (quorum.f.toNat = 0 ∨ coHolderGroups quorum owner neighbourhood domains = []) ∨
      0 < quorum.f.toNat ∧ ∃ group ∈ coHolderGroups quorum owner neighbourhood domains,
        candidatesFor owner neighbourhood domains object quorum =
          owner :: group.map Prod.fst ∧
        ∀ other ∈ coHolderGroups quorum owner neighbourhood domains,
          copysetKey object (owner :: other.map Prod.fst) ≤
            copysetKey object (owner :: group.map Prod.fst) := by
  have hcand : candidatesFor owner neighbourhood domains object quorum =
      (copysetFor object (ownerCopysets owner (withDomains neighbourhood domains) quorum)).getD
        [owner] := rfl
  rcases Nat.eq_zero_or_pos quorum.f.toNat with hf | hf
  · refine .inl ⟨?_, .inl hf⟩
    rw [hcand, ownerCopysets_of_zero hf]
    rfl
  rw [ownerCopysets_of_pos hf] at hcand
  split at hcand
  · rename_i hempty
    exact .inl ⟨hcand, .inr (List.isEmpty_iff.mp hempty)⟩
  · rename_i hne
    refine .inr ⟨hf, ?_⟩
    cases hmax : copysetFor object ((coHolderGroups quorum owner neighbourhood domains).map
        fun group => owner :: group.map Prod.fst) with
    | none =>
      rw [copysetFor, List.argmax_eq_none, List.reverse_eq_nil_iff, List.map_eq_nil_iff] at hmax
      exact absurd (List.isEmpty_iff.mpr hmax) hne
    | some chosen =>
      rw [copysetFor] at hmax
      obtain ⟨group, hgroup, rfl⟩ :=
        List.mem_map.mp (List.mem_reverse.mp (List.argmax_mem hmax))
      rw [copysetFor, hmax] at hcand
      refine ⟨group, hgroup, hcand, fun other hother => ?_⟩
      exact List.le_of_mem_argmax
        (List.mem_reverse.mpr (List.mem_map_of_mem (f := fun group => owner :: group.map Prod.fst)
          hother)) hmax

theorem copysetKey_group (hhead : group.head? = some h) :
    copysetKey object (owner :: group.map Prod.fst) = rendezvousKey object h.1 := by
  cases group with
  | nil => cases hhead
  | cons h' group =>
    cases hhead
    rfl

theorem head?_candidatesFor :
    (candidatesFor owner neighbourhood domains object quorum).head? = some owner := by
  rcases @candidatesFor_cases quorum owner neighbourhood domains object with
    ⟨hcand, -⟩ | ⟨-, group, -, hcand, -⟩
  · rw [hcand]
    rfl
  · rw [hcand]
    rfl

/-! ## Domains -/

theorem nodup_domains (howner : owner ∈ neighbourhood ∨ quorum.f.toNat = 0 ∨
      ∀ host ∈ neighbourhood, domainOf domains host ≠ domainOf domains owner) :
    ((candidatesFor owner neighbourhood domains object quorum).map (domainOf domains)).Nodup := by
  rcases @candidatesFor_cases quorum owner neighbourhood domains object with
    ⟨hcand, -⟩ | ⟨hf, group, hgroup, hcand, -⟩
  · rw [hcand]
    exact List.nodup_singleton _
  rw [hcand, List.map_cons, map_domainOf_group hgroup]
  refine List.nodup_cons.mpr ⟨fun hin => ?_, FirstFit.nodup_of_mem_groups group hgroup⟩
  obtain ⟨h, hh, hdomain⟩ := List.mem_map.mp hin
  obtain ⟨hmem, hof, -, hapart⟩ := mem_usable.mp (mem_usable_of_mem_group hgroup hh)
  rcases howner with howner | hzero | hall
  · exact hapart howner hdomain
  · omega
  · exact hall h.1 hmem (hof ▸ hdomain)

theorem countP_copysets (hf : 0 < quorum.f.toNat) (hin : host ∈ neighbourhood)
    (hne : domainOf domains host ≠ domainOf domains owner) :
    (ownerCopysets owner (withDomains neighbourhood domains) quorum).countP (host ∈ ·) =
      neighbourhood.count host := by
  have hhost : host ≠ owner := fun h => hne (by rw [h])
  have husable : (host, domainOf domains host) ∈
      usableCoHolders owner (withDomains neighbourhood domains) :=
    mem_usable.mpr ⟨hin, rfl, hhost, fun _ => hne⟩
  have hsome : coHolderGroups quorum owner neighbourhood domains ≠ [] := by
    intro hnil
    have hflat := (@FirstFit.perm_flatten_groups _ _ _ Prod.snd (quorum.f.toNat * 2)
      (usableCoHolders owner (withDomains neighbourhood domains))).mem_iff.mpr husable
    rw [show FirstFit.groups Prod.snd (quorum.f.toNat * 2)
      (usableCoHolders owner (withDomains neighbourhood domains)) = [] from hnil] at hflat
    cases hflat
  rw [ownerCopysets_of_pos hf, if_neg (by simpa using hsome), List.countP_map, ← count_usable hne,
    ← @FirstFit.countP_mem_groups _ _ _ Prod.snd (quorum.f.toNat * 2)]
  refine List.countP_congr fun group hgroup => ?_
  simp only [Function.comp_apply, decide_eq_true_eq, List.mem_cons, hhost, false_or, List.mem_map]
  constructor
  · rintro ⟨h, hh, rfl⟩
    rw [← (mem_usable.mp (mem_usable_of_mem_group hgroup hh)).2.1]
    exact hh
  · exact fun hh => ⟨_, hh, rfl⟩

theorem covered_iff (hin : host ∈ neighbourhood)
    (hne : domainOf domains host ≠ domainOf domains owner) :
    (ownerCopysets owner (withDomains neighbourhood domains) quorum).countP (host ∈ ·) = 1 ↔
      0 < quorum.f.toNat ∧ neighbourhood.count host = 1 := by
  rcases Nat.eq_zero_or_pos quorum.f.toNat with hf | hf
  · have hhost : host ≠ owner := fun h => hne (by rw [h])
    rw [ownerCopysets_of_zero hf]
    simp [hf, hhost]
  · rw [countP_copysets hf hin hne]
    simp [hf]

/-! ## The remainder -/

theorem Rich.nodup (hrich : Rich quorum owner neighbourhood domains) : neighbourhood.Nodup :=
  hrich.apart.of_map _

theorem Rich.nodup_usable (hrich : Rich quorum owner neighbourhood domains) :
    ((usableCoHolders owner (withDomains neighbourhood domains)).map Prod.snd).Nodup := by
  refine (usable_perm.map Prod.snd).nodup_iff.mpr
    (List.Nodup.sublist (List.filter_sublist.map _) ?_)
  rw [withDomains, List.map_map]
  exact hrich.apart

theorem Rich.length_usable (hrich : Rich quorum owner neighbourhood domains) :
    (usableCoHolders owner (withDomains neighbourhood domains)).length =
      neighbourhood.length - 1 := by
  rw [usable_perm.length_eq, withDomains, List.filter_map, List.length_map,
    ← List.length_erase_of_mem hrich.owner_mem, hrich.nodup.erase_eq_filter]
  refine congrArg List.length (List.filter_congr fun host hhost => ?_)
  simp only [Function.comp_apply, if_pos hrich.owner_mem]
  by_cases h : host = owner
  · simp [h]
  · have hne : domainOf domains host ≠ domainOf domains owner :=
      fun he => h (List.inj_on_of_nodup_map hrich.apart hhost hrich.owner_mem he)
    simp [h, hne]

theorem rendezvousKey_injective (object : ObjectId) :
    Function.Injective (rendezvousKey object) := by
  intro a b h
  have hpair : ((rendezvousWeight a object).toNat, a.toNat) =
      ((rendezvousWeight b object).toNat, b.toNat) := h
  exact UInt64.toNat_inj.mp (Prod.mk.inj hpair).2

theorem Rich.nodup_keys (hrich : Rich quorum owner neighbourhood domains) :
    ((usableCoHolders owner (withDomains neighbourhood domains)).map
      fun h => rendezvousKey object h.1).Nodup := by
  refine (hrich.nodup_usable.of_map _).map_on fun h hh h' hh' heq => ?_
  have hfst := rendezvousKey_injective object heq
  exact Prod.ext hfst (by rw [(mem_usable.mp hh).2.1, (mem_usable.mp hh').2.1, hfst])

theorem Rich.length_candidatesFor_iff (hrich : Rich quorum owner neighbourhood domains) :
    (candidatesFor owner neighbourhood domains object quorum).length = quorum.candidates ↔
      quorum.f.toNat = 0 ∨ quorum.f.toNat * 2 ∣ neighbourhood.length - 1 ∨
      ∃ i < (neighbourhood.length - 1) / (quorum.f.toNat * 2), ∃ first last,
        (usableCoHolders owner (withDomains neighbourhood domains))[quorum.f.toNat * 2 * i]? =
          some first ∧
        (usableCoHolders owner (withDomains neighbourhood domains))[quorum.f.toNat * 2 *
          ((neighbourhood.length - 1) / (quorum.f.toNat * 2))]? = some last ∧
        rendezvousKey object last.1 < rendezvousKey object first.1 := by
  rcases @candidatesFor_cases quorum owner neighbourhood domains object with
    ⟨hcand, hzero | hnil⟩ | ⟨hf, group, hgroup, hcand, hmax⟩
  · simp [hcand, hzero, Quorum.candidates]
  · -- there are co-holders enough, so no groups means that none are asked for
    have hflat := (@FirstFit.perm_flatten_groups _ _ _ Prod.snd (quorum.f.toNat * 2)
      (usableCoHolders owner (withDomains neighbourhood domains))).length_eq
    have hlen := hrich.length_usable
    have henough := hrich.enough
    rw [show FirstFit.groups Prod.snd (quorum.f.toNat * 2)
      (usableCoHolders owner (withDomains neighbourhood domains)) = [] from hnil,
      List.flatten_nil, List.length_nil] at hflat
    rw [Quorum.candidates] at henough
    have hzero : quorum.f.toNat = 0 := by omega
    simp [hcand, hzero, Quorum.candidates]
  have hroom : 0 < quorum.f.toNat * 2 := by omega
  have hfull := (FirstFit.chunked_groups hroom hrich.nodup_usable).full_iff hroom
    (fun h => rendezvousKey object h.1) hrich.nodup_keys hgroup fun g' hg' x' hx' x hx => by
      rw [← copysetKey_group hx', ← copysetKey_group hx]
      exact hmax g' hg'
  rw [hrich.length_usable] at hfull
  rw [← hfull, hcand, List.length_cons, List.length_map, Quorum.candidates]
  omega

end Copysets

/-- **Placement**: a placeable object's placement keeps its promise, and no other does. -/
theorem sound_of_placeable (quorum : Quorum) (owner : HostId) (neighbourhood : List HostId)
    (domains : HostMap DomainId) (object : ObjectId) :
    (Placeable quorum owner neighbourhood domains object →
        Sound quorum owner neighbourhood domains object) ∧
      (owner ∈ neighbourhood → Sound quorum owner neighbourhood domains object →
        Placeable quorum owner neighbourhood domains object) := by
  constructor
  · intro h
    have hapart := @nodup_domains quorum owner neighbourhood domains object h.owner_in
    refine ⟨fun hrich => ⟨?_, hapart.of_map _, head?_candidatesFor⟩, hapart, fun host hin hne => ?_⟩
    · exact hrich.length_candidatesFor_iff.mpr (h.remainder hrich)
    · exact (covered_iff hin hne).mpr (h.once host hin hne)
  · intro howner h
    refine ⟨fun hrich => ?_, .inl howner, fun host hin hne => ?_⟩
    · exact hrich.length_candidatesFor_iff.mp (h.full hrich).1
    · exact (covered_iff hin hne).mp (h.covered host hin hne)

theorem sound_of_placeable_threeHosts :
    Placeable ⟨1⟩ 1 [1, 2, 3] ∅ (.new 1 1) ∧ Sound ⟨1⟩ 1 [1, 2, 3] ∅ (.new 1 1) := by
  have h : Placeable ⟨1⟩ 1 [1, 2, 3] ∅ (.new 1 1) :=
    ⟨fun _ => .inr (.inl (by decide)), .inl (by decide),
      fun _ hin _ => ⟨by decide, List.count_eq_one_of_mem (by decide) hin⟩⟩
  exact ⟨h, (sound_of_placeable _ _ _ _ _).1 h⟩

theorem remainder_falls_short :
    Rich ⟨1⟩ 1 [1, 2, 3, 4] ∅ ∧ candidatesFor 1 [1, 2, 3, 4] ∅ (.new 1 1) ⟨1⟩ = [1, 4] ∧
      ¬ Sound ⟨1⟩ 1 [1, 2, 3, 4] ∅ (.new 1 1) := by
  have hrich : Rich ⟨1⟩ 1 [1, 2, 3, 4] ∅ := ⟨by decide, by decide, by decide⟩
  have hcand : candidatesFor 1 [1, 2, 3, 4] ∅ (.new 1 1) ⟨1⟩ = [1, 4] := by decide
  refine ⟨hrich, hcand, fun h => ?_⟩
  have hlen := (h.full hrich).1
  rw [hcand] at hlen
  exact absurd hlen (by decide)

end Slates.Register
