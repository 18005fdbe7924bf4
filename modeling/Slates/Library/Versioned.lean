import Mathlib

/-!
Maps that remember their past: the current value of each key, a history of every value it had
(oldest first, `none` for a removal) and the version it last changed at. `valueAt` reads an earlier
version and `foldBelow` forgets what no version at or above a floor can read.
-/

open Std (ExtTreeMap TransOrd LawfulEqOrd)

namespace Slates

theorem mem_of_getElem? {K V : Type} [Ord K] [TransOrd K] {m : ExtTreeMap K V} {k : K} {v : V}
    (h : m[k]? = some v) : k ∈ m :=
  ExtTreeMap.mem_iff_isSome_getElem?.mpr (by simp [h])

theorem exists_getElem? {K V : Type} [Ord K] [TransOrd K] {m : ExtTreeMap K V} {k : K}
    (h : k ∈ m) : ∃ v, m[k]? = some v :=
  Option.isSome_iff_exists.mp (ExtTreeMap.mem_iff_isSome_getElem?.mp h)

theorem eq_of_mem_insert_empty {K V : Type} [Ord K] [TransOrd K] [LawfulEqOrd K] {k k' : K} {v : V}
    (h : k ∈ (∅ : ExtTreeMap K V).insert k' v) : k = k' := by
  rcases ExtTreeMap.mem_insert.mp h with h | h
  · exact (Std.compare_eq_iff_eq.mp h).symm
  · exact absurd h ExtTreeMap.not_mem_empty

theorem toList_split {K V : Type} [Ord K] [TransOrd K] [LawfulEqOrd K] {m : ExtTreeMap K V}
    {k : K} {v : V} (h : m[k]? = some v) :
    ∃ before after, m.toList = before ++ (k, v) :: after ∧
      ∀ a b, (a, b) ∈ after ↔ m[a]? = some b ∧ compare k a = .lt := by
  obtain ⟨before, after, heq⟩ :=
    List.append_of_mem (ExtTreeMap.mem_toList_iff_getElem?_eq_some.mpr h)
  have hord := @ExtTreeMap.ordered_keys_toList _ _ _ m _
  rw [heq, List.pairwise_append] at hord
  refine ⟨before, after, heq, fun a b => ?_⟩
  rw [← ExtTreeMap.mem_toList_iff_getElem?_eq_some, heq]
  constructor
  · intro he
    exact ⟨by simp [he], List.rel_of_pairwise_cons hord.2.1 he⟩
  · rintro ⟨he, hlt⟩
    rcases List.mem_append.mp he with hb | hb
    · have := hord.2.2 (a, b) hb (k, v) (by simp)
      exact absurd hlt (Std.OrientedCmp.not_lt_of_lt this)
    · rcases List.mem_cons.mp hb with hk | ha
      · cases hk
        rw [Std.ReflOrd.compare_self] at hlt
        cases hlt
      · exact ha

/-- The entries a function keeps, and what it makes of them. -/
def pick {K V W : Type} [Ord K] [TransOrd K] (f : K → V → Option W) (m : ExtTreeMap K V) :
    ExtTreeMap K W :=
  ExtTreeMap.ofList (m.toList.filterMap fun e => (f e.1 e.2).map (e.1, ·))

theorem getElem?_pick {K V W : Type} [Ord K] [TransOrd K] [LawfulEqOrd K] [DecidableEq K]
    (f : K → V → Option W) (m : ExtTreeMap K V) (k : K) :
    (pick f m)[k]? = (m[k]?).bind (f k) := by
  have hmem : ∀ w, (k, w) ∈ m.toList.filterMap (fun e => (f e.1 e.2).map (e.1, ·)) ↔
      (m[k]?).bind (f k) = some w := by
    intro w
    rw [List.mem_filterMap, Option.bind_eq_some_iff]
    constructor
    · rintro ⟨⟨a, v⟩, he, hw⟩
      obtain ⟨w', hw', heq⟩ := Option.map_eq_some_iff.mp hw
      cases heq
      exact ⟨v, ExtTreeMap.mem_toList_iff_getElem?_eq_some.mp he, hw'⟩
    · rintro ⟨v, hv, hw⟩
      exact ⟨(k, v), ExtTreeMap.mem_toList_iff_getElem?_eq_some.mpr hv, by simp [hw]⟩
  have hdist : (m.toList.filterMap (fun e => (f e.1 e.2).map (e.1, ·))).Pairwise
      (fun a b => ¬ compare a.1 b.1 = .eq) := by
    rw [List.pairwise_filterMap]
    refine (@ExtTreeMap.distinct_keys_toList _ _ _ m _).imp fun {a b} hab a' ha b' hb => ?_
    obtain ⟨_, _, rfl⟩ := Option.map_eq_some_iff.mp ha
    obtain ⟨_, _, rfl⟩ := Option.map_eq_some_iff.mp hb
    exact hab
  cases h : (m[k]?).bind (f k) with
  | some w =>
    exact ExtTreeMap.getElem?_ofList_of_mem Std.ReflOrd.compare_self hdist ((hmem w).mpr h)
  | none =>
    apply ExtTreeMap.getElem?_ofList_of_contains_eq_false
    rw [← Bool.not_eq_true, List.contains_iff_mem, List.mem_map]
    rintro ⟨⟨a, w⟩, he, rfl⟩
    simp [(hmem w).mp he] at h

/-- One key's history: the versions it changed at and the value then. -/
abbrev Entries (V : Type) := List (Nat × Option V)

/-- The last entry recorded at or before `version`. -/
def historyAt {V : Type} (entries : Entries V) (version : Nat) : Option V :=
  (entries.reverse.find? (fun e => e.1 ≤ version)).bind (·.2)

def historyTouches {V : Type} (entries : Entries V) (since upto : Nat) : Bool :=
  entries.any (fun e => since < e.1 && e.1 ≤ upto)

/-- Everything below the floor when an entry sits exactly at it, else all but the last of them. -/
def foldCount {V : Type} (entries : Entries V) (floor : Nat) : Nat :=
  let below := (entries.takeWhile (fun e => e.1 < floor)).length
  if (entries[below]?).any (fun e => e.1 = floor) then below else below - 1

def foldEntries {V : Type} (entries : Entries V) (floor : Nat) : Entries V :=
  entries.drop (foldCount entries floor)

/-- The priced sum of the entries a fold drops. -/
def foldReleased {V : Type} (entries : Entries V) (floor : Nat) (cost : Option V → Nat) : Nat :=
  ((entries.take (foldCount entries floor)).map (fun e => cost e.2)).sum

section Entries

variable {V : Type}

@[simp] theorem historyAt_nil (version : Nat) : historyAt ([] : Entries V) version = none := rfl

theorem historyAt_append (older newer : Entries V) (version : Nat) :
    historyAt (older ++ newer) version =
      if newer.any (fun e => e.1 ≤ version) then historyAt newer version
      else historyAt older version := by
  unfold historyAt
  rw [List.reverse_append, List.find?_append]
  cases h : newer.reverse.find? (fun e => decide (e.1 ≤ version)) with
  | none =>
    have hn : newer.any (fun e => decide (e.1 ≤ version)) = false := by
      rw [List.any_eq_false]
      intro e he
      exact List.find?_eq_none.mp h e (List.mem_reverse.mpr he)
    simp [hn]
  | some e =>
    have hs : newer.any (fun e => decide (e.1 ≤ version)) = true :=
      List.any_eq_true.mpr ⟨e, List.mem_reverse.mp (List.mem_of_find?_eq_some h),
        by simpa using List.find?_some h⟩
    simp [hs]

theorem historyAt_snoc (entries : Entries V) (at' : Nat) (value : Option V) (version : Nat) :
    historyAt (entries ++ [(at', value)]) version =
      if at' ≤ version then value else historyAt entries version := by
  rw [historyAt_append]
  by_cases h : at' ≤ version <;> simp [h, historyAt]

theorem historyAt_append_above (older newer : Entries V) (version : Nat)
    (h : ∀ e ∈ newer, version < e.1) :
    historyAt (older ++ newer) version = historyAt older version := by
  rw [historyAt_append]
  have hn : newer.any (fun e => decide (e.1 ≤ version)) = false := by
    rw [List.any_eq_false]
    intro e he
    have := h e he
    simp only [decide_eq_true_eq]
    omega
  simp [hn]

theorem historyTouches_append (older newer : Entries V) (since upto : Nat) :
    historyTouches (older ++ newer) since upto =
      (historyTouches older since upto || historyTouches newer since upto) := by
  simp [historyTouches]

theorem foldCount_spec (entries : Entries V) (floor : Nat) :
    (∀ e ∈ entries.take (foldCount entries floor), e.1 < floor) ∧
    (foldCount entries floor = 0 ∨
      ∃ e ∈ entries.drop (foldCount entries floor), e.1 ≤ floor) := by
  set below := (entries.takeWhile (fun e => e.1 < floor)).length with hb
  have htake : entries.take below = entries.takeWhile (fun e => decide (e.1 < floor)) :=
    (List.prefix_iff_eq_take.mp (List.takeWhile_prefix _)).symm
  have hsmall : ∀ n ≤ below, ∀ e ∈ entries.take n, e.1 < floor := by
    intro n hn e he
    have hm : e ∈ entries.take below := List.take_subset_take_left entries hn he
    rw [htake] at hm
    simpa using List.mem_takeWhile_imp hm
  by_cases hf : (entries[below]?).any (fun e => decide (e.1 = floor)) = true
  · have hc : foldCount entries floor = below := by simp [foldCount, ← hb, hf]
    rw [hc]
    refine ⟨hsmall below le_rfl, Or.inr ?_⟩
    obtain ⟨e, he, hv⟩ := (Option.any_eq_true _ _).mp hf
    refine ⟨e, ?_, le_of_eq (by simpa using hv)⟩
    rw [List.mem_iff_getElem?]
    exact ⟨0, by simpa using he⟩
  · have hc : foldCount entries floor = below - 1 := by simp [foldCount, ← hb, hf]
    rw [hc]
    refine ⟨hsmall (below - 1) (by omega), ?_⟩
    by_cases h0 : below - 1 = 0
    · exact Or.inl h0
    · right
      have hlt : below - 1 < entries.length := by
        have := (List.takeWhile_prefix (fun e => decide (e.1 < floor)) (l := entries)).length_le
        omega
      refine ⟨entries[below - 1], ?_, le_of_lt (hsmall below le_rfl _ ?_)⟩
      · rw [List.mem_iff_getElem?]
        exact ⟨0, by simp [List.getElem?_eq_getElem hlt]⟩
      · rw [List.mem_iff_getElem?]
        exact ⟨below - 1, by
          rw [List.getElem?_take_of_lt (by omega), List.getElem?_eq_getElem hlt]⟩

theorem historyAt_drop (entries : Entries V) (n version : Nat)
    (h : n = 0 ∨ ∃ e ∈ entries.drop n, e.1 ≤ version) :
    historyAt (entries.drop n) version = historyAt entries version := by
  rcases h with rfl | ⟨e, he, hle⟩
  · rfl
  · have hany : (entries.drop n).any (fun e => decide (e.1 ≤ version)) = true :=
      List.any_eq_true.mpr ⟨e, he, by simpa using hle⟩
    conv_rhs => rw [← List.take_append_drop n entries, historyAt_append, if_pos hany]

/-- **Folding is invisible to reads** at and above the floor. -/
theorem historyAt_foldEntries (entries : Entries V) (floor version : Nat) (h : floor ≤ version) :
    historyAt (foldEntries entries floor) version = historyAt entries version := by
  apply historyAt_drop
  rcases (foldCount_spec entries floor).2 with hz | ⟨e, he, hle⟩
  · exact Or.inl hz
  · exact Or.inr ⟨e, he, hle.trans h⟩

theorem historyAt_foldEntries_of_le (entries : Entries V) (floor version : Nat)
    (h : ∀ e ∈ entries, e.1 ≤ version) :
    historyAt (foldEntries entries floor) version = historyAt entries version := by
  apply historyAt_drop
  rcases (foldCount_spec entries floor).2 with hz | ⟨e, he, _⟩
  · exact Or.inl hz
  · exact Or.inr ⟨e, he, h e (List.mem_of_mem_drop he)⟩

theorem historyAt_eq_of_le (entries : Entries V) (v w : Nat)
    (hv : ∀ e ∈ entries, e.1 ≤ v) (hw : ∀ e ∈ entries, e.1 ≤ w) :
    historyAt entries v = historyAt entries w := by
  induction entries using List.reverseRecOn with
  | nil => rfl
  | append_singleton older e _ =>
    have h1 := hv e (by simp)
    have h2 := hw e (by simp)
    rw [historyAt_snoc, historyAt_snoc, if_pos h1, if_pos h2]

theorem foldEntries_subset (entries : Entries V) (floor : Nat) :
    ∀ e ∈ foldEntries entries floor, e ∈ entries :=
  fun _ he => List.mem_of_mem_drop he

theorem historyAt_of_foldEntries {entries : Entries V} {floor version : Nat} {v : V}
    (h : historyAt (foldEntries entries floor) version = some v) :
    historyAt entries version = some v := by
  obtain ⟨e, he, -⟩ := Option.bind_eq_some_iff.mp h
  have hmem := List.mem_reverse.mp (List.mem_of_find?_eq_some he)
  have hle : e.1 ≤ version := by simpa using List.find?_some he
  rw [← h]
  exact (historyAt_drop entries _ version (.inr ⟨e, hmem, hle⟩)).symm

/-- **Folding is invisible to spans** that start at or above the floor. -/
theorem historyTouches_foldEntries (entries : Entries V) (floor since upto : Nat)
    (h : floor ≤ since) :
    historyTouches (foldEntries entries floor) since upto = historyTouches entries since upto := by
  have hsplit : entries = entries.take (foldCount entries floor) ++ foldEntries entries floor := by
    simp [foldEntries]
  conv_rhs => rw [hsplit, historyTouches_append]
  have hnone : historyTouches (entries.take (foldCount entries floor)) since upto = false := by
    rw [historyTouches, List.any_eq_false]
    intro e he
    have := (foldCount_spec entries floor).1 e he
    simp only [Bool.and_eq_true, decide_eq_true_eq, not_and]
    omega
  simp [hnone]

theorem historyAt_eq_of_untouched {entries : Entries V} {since upto : Nat}
    (hle : since ≤ upto) (h : historyTouches entries since upto = false) :
    historyAt entries since = historyAt entries upto := by
  induction entries using List.reverseRecOn with
  | nil => rfl
  | append_singleton older e ih =>
    obtain ⟨at', value⟩ := e
    rw [historyTouches_append, Bool.or_eq_false_iff] at h
    have hnot : since < at' → ¬ at' ≤ upto := by simpa [historyTouches] using h.2
    rw [historyAt_snoc, historyAt_snoc, ih h.1]
    by_cases hs : at' ≤ since
    · rw [if_pos hs, if_pos (hs.trans hle)]
    · rw [if_neg hs, if_neg (hnot (not_le.mp hs))]

end Entries

/-- A map with its past. `changed` is the version each key last changed at. -/
structure Versioned (K V : Type) [Ord K] [TransOrd K] where
  current : ExtTreeMap K V
  history : ExtTreeMap K (Entries V)
  changed : ExtTreeMap K Nat

namespace Versioned

variable {K V : Type} [Ord K] [TransOrd K]

def empty : Versioned K V := ⟨∅, ∅, ∅⟩

/-- A map whose first version is `current`. -/
def seed (current : ExtTreeMap K V) : Versioned K V where
  current := current
  history := current.map (fun _ v => [(0, some v)])
  changed := current.map (fun _ _ => 0)

def pushEntry (history : ExtTreeMap K (Entries V)) (k : K) (e : Nat × Option V) :
    ExtTreeMap K (Entries V) :=
  history.insert k (history.getD k [] ++ [e])

def write (m : Versioned K V) (k : K) (value : Option V) (version : Nat) : Versioned K V where
  current := match value with
    | some v => m.current.insert k v
    | none => m.current.erase k
  history := pushEntry m.history k (version, value)
  changed := m.changed.insert k version

abbrev set (m : Versioned K V) (k : K) (v : V) (version : Nat) : Versioned K V :=
  m.write k (some v) version

abbrev clear (m : Versioned K V) (k : K) (version : Nat) : Versioned K V :=
  m.write k none version

def writeAll (m : Versioned K V) (version : Nat) (changes : List (K × Option V)) :
    Versioned K V :=
  changes.foldl (fun m c => m.write c.1 c.2 version) m

def entries (m : Versioned K V) (k : K) : Entries V := m.history.getD k []

def valueAt (m : Versioned K V) (k : K) (version : Nat) : Option V :=
  (m.history[k]?).bind (historyAt · version)

def valuesAt (m : Versioned K V) (version : Nat) : ExtTreeMap K V :=
  pick (fun _ h => historyAt h version) m.history

/-- The map at `version`: its current values from the head on. -/
def snapshot (m : Versioned K V) (head version : Nat) : ExtTreeMap K V :=
  if head ≤ version then m.current else m.valuesAt version

def changedAt (m : Versioned K V) (k : K) : Nat := m.changed.getD k 0

def keysTouched (m : Versioned K V) (since upto : Nat) : List K :=
  (pick (fun _ h => if historyTouches h since upto then some () else none) m.history).keys

def foldBelow (m : Versioned K V) (floor : Nat) : Versioned K V :=
  { m with history := m.history.map (fun _ h => foldEntries h floor) }

/-- What a fold releases, priced by `cost`. -/
def releasedBelow (m : Versioned K V) (floor : Nat) (cost : Option V → Nat) : Nat :=
  (m.history.toList.map (fun e => foldReleased e.2 floor cost)).sum

/-! ## What a change does to the entries -/

theorem valueAt_eq (m : Versioned K V) (k : K) (version : Nat) :
    m.valueAt k version = historyAt (m.entries k) version := by
  unfold valueAt entries
  rw [ExtTreeMap.getD_eq_getD_getElem?]
  cases m.history[k]? <;> simp

theorem writeAll_append (m : Versioned K V) (version : Nat) (older newer : List (K × Option V)) :
    m.writeAll version (older ++ newer) = (m.writeAll version older).writeAll version newer :=
  List.foldl_append

theorem writeAll_snoc (m : Versioned K V) (version : Nat) (changes : List (K × Option V))
    (c : K × Option V) :
    m.writeAll version (changes ++ [c]) = (m.writeAll version changes).write c.1 c.2 version :=
  List.foldl_concat ..

variable [LawfulEqOrd K] [DecidableEq K]

theorem getElem?_valuesAt (m : Versioned K V) (k : K) (version : Nat) :
    (m.valuesAt version)[k]? = m.valueAt k version := by
  rw [valuesAt, getElem?_pick, valueAt]

theorem getElem?_touched (m : Versioned K V) (k : K) (since upto : Nat) :
    (pick (fun _ h => if historyTouches h since upto then some () else none) m.history)[k]? =
      if historyTouches (m.entries k) since upto then some () else none := by
  rw [getElem?_pick, entries, ExtTreeMap.getD_eq_getD_getElem?]
  cases m.history[k]? <;> rfl

theorem mem_keysTouched {m : Versioned K V} {k : K} {since upto : Nat} :
    k ∈ m.keysTouched since upto ↔ historyTouches (m.entries k) since upto = true := by
  rw [keysTouched, ExtTreeMap.mem_keys, ExtTreeMap.mem_iff_isSome_getElem?, getElem?_touched]
  split_ifs with h <;> simp [h]

theorem valueAt_eq_of_untouched {m : Versioned K V} {k : K} {since upto : Nat} (hle : since ≤ upto)
    (h : k ∉ m.keysTouched since upto) :
    m.valueAt k since = m.valueAt k upto := by
  rw [mem_keysTouched, Bool.not_eq_true] at h
  rw [valueAt_eq, valueAt_eq, historyAt_eq_of_untouched hle h]

theorem getD_pushEntry (history : ExtTreeMap K (Entries V)) (k a : K) (e : Nat × Option V) :
    (pushEntry history k e).getD a [] =
      if k = a then history.getD k [] ++ [e] else history.getD a [] := by
  rw [pushEntry, ExtTreeMap.getD_insert]
  simp only [Std.compare_eq_iff_eq]

omit [DecidableEq K] in
theorem mem_pushEntry (history : ExtTreeMap K (Entries V)) (k a : K) (e : Nat × Option V) :
    a ∈ pushEntry history k e ↔ k = a ∨ a ∈ history := by
  rw [pushEntry, ExtTreeMap.mem_insert, Std.compare_eq_iff_eq]

@[simp] theorem entries_write (m : Versioned K V) (k a : K) (value : Option V) (version : Nat) :
    (m.write k value version).entries a =
      if k = a then m.entries k ++ [(version, value)] else m.entries a :=
  getD_pushEntry _ _ _ _

@[simp] theorem current_write (m : Versioned K V) (k a : K) (value : Option V) (version : Nat) :
    (m.write k value version).current[a]? = if k = a then value else m.current[a]? := by
  cases value with
  | none =>
    rw [write, ExtTreeMap.getElem?_erase]
    simp only [Std.compare_eq_iff_eq]
  | some v =>
    rw [write, ExtTreeMap.getElem?_insert]
    simp only [Std.compare_eq_iff_eq]

@[simp] theorem changedAt_write (m : Versioned K V) (k a : K) (value : Option V) (version : Nat) :
    (m.write k value version).changedAt a = if k = a then version else m.changedAt a := by
  simp only [changedAt, write, ExtTreeMap.getD_insert, Std.compare_eq_iff_eq]

theorem valueAt_write (m : Versioned K V) (k a : K) (value : Option V) (version read : Nat) :
    (m.write k value version).valueAt a read =
      if k = a ∧ version ≤ read then value else m.valueAt a read := by
  rw [valueAt_eq, valueAt_eq, entries_write]
  by_cases h : k = a
  · subst h
    rw [if_pos rfl, historyAt_snoc]
    simp
  · simp [h]

/-! ### Several changes at one version -/

def changesOf (changes : List (K × Option V)) (k : K) : List (Option V) :=
  changes.filterMap (fun c => if c.1 = k then some c.2 else none)

section

omit [Ord K] [TransOrd K] [LawfulEqOrd K]

@[simp] theorem changesOf_nil (k : K) : changesOf ([] : List (K × Option V)) k = [] := rfl

theorem changesOf_append (older newer : List (K × Option V)) (k : K) :
    changesOf (older ++ newer) k = changesOf older k ++ changesOf newer k :=
  List.filterMap_append

theorem changesOf_snoc (changes : List (K × Option V)) (c : K × Option V) (k : K) :
    changesOf (changes ++ [c]) k =
      if c.1 = k then changesOf changes k ++ [c.2] else changesOf changes k := by
  rw [changesOf_append]
  by_cases h : c.1 = k <;> simp [changesOf, h]

theorem mem_changesOf (changes : List (K × Option V)) (k : K) (value : Option V) :
    value ∈ changesOf changes k ↔ (k, value) ∈ changes := by
  simp only [changesOf, List.mem_filterMap]
  constructor
  · rintro ⟨⟨k', value'⟩, hc, hk⟩
    by_cases h : k' = k
    · simp only [h, if_pos, Option.some.injEq] at hk
      exact h ▸ hk ▸ hc
    · simp [h] at hk
  · exact fun hc => ⟨(k, value), hc, by simp⟩

end

theorem current_writeAll (m : Versioned K V) (version : Nat) (changes : List (K × Option V))
    (k : K) :
    (m.writeAll version changes).current[k]? =
      ((changesOf changes k).getLast?).getD m.current[k]? := by
  induction changes using List.reverseRecOn with
  | nil => rfl
  | append_singleton changes c ih =>
    rw [writeAll_snoc, current_write, changesOf_snoc]
    by_cases h : c.1 = k
    · simp [h]
    · simp [h, ih]

variable {version : Nat} {changes : List (K × Option V)}

theorem entries_writeAll (m : Versioned K V) (version : Nat) (changes : List (K × Option V))
    (k : K) :
    (m.writeAll version changes).entries k =
      m.entries k ++ (changesOf changes k).map (version, ·) := by
  induction changes using List.reverseRecOn with
  | nil => simp [writeAll]
  | append_singleton changes c ih =>
    rw [writeAll_snoc, entries_write, changesOf_snoc]
    by_cases h : c.1 = k
    · subst h
      simp [ih]
    · simp [h, ih]

theorem changedAt_writeAll (m : Versioned K V) (version : Nat) (changes : List (K × Option V))
    (k : K) :
    (m.writeAll version changes).changedAt k =
      if changesOf changes k = [] then m.changedAt k else version := by
  induction changes using List.reverseRecOn with
  | nil => simp [writeAll]
  | append_singleton changes c ih =>
    rw [writeAll_snoc, changedAt_write, changesOf_snoc]
    by_cases h : c.1 = k
    · simp [h]
    · simp [h, ih]

theorem valueAt_writeAll_of_lt (m : Versioned K V) (version : Nat) (changes : List (K × Option V))
    (k : K) {read : Nat} (h : read < version) :
    (m.writeAll version changes).valueAt k read = m.valueAt k read := by
  rw [valueAt_eq, valueAt_eq, entries_writeAll, historyAt_append_above]
  intro e he
  obtain ⟨value, -, rfl⟩ := List.mem_map.mp he
  exact h

omit [DecidableEq K] in
@[simp] theorem entries_foldBelow (m : Versioned K V) (floor : Nat) (k : K) :
    (m.foldBelow floor).entries k = foldEntries (m.entries k) floor := by
  unfold entries foldBelow
  rw [ExtTreeMap.getD_eq_getD_getElem?, ExtTreeMap.getD_eq_getD_getElem?,
    ExtTreeMap.getElem?_map]
  cases m.history[k]? <;> simp [foldEntries]

omit [DecidableEq K] in
theorem valueAt_foldBelow (m : Versioned K V) (floor : Nat) (k : K) (version : Nat)
    (h : floor ≤ version) : (m.foldBelow floor).valueAt k version = m.valueAt k version := by
  rw [valueAt_eq, valueAt_eq, entries_foldBelow, historyAt_foldEntries _ _ _ h]

omit [DecidableEq K] in
theorem valueAt_of_foldBelow {m : Versioned K V} {floor : Nat} {k : K} {v : V}
    (h : (m.foldBelow floor).valueAt k version = some v) : m.valueAt k version = some v := by
  rw [valueAt_eq, entries_foldBelow] at h
  rw [valueAt_eq]
  exact historyAt_of_foldEntries h

/-! ## Maps no read at or above a floor tells apart -/

structure AgreeFrom (floor : Nat) (m m' : Versioned K V) : Prop where
  current : m.current = m'.current
  changed : m.changed = m'.changed
  keys : ∀ k, k ∈ m.history ↔ k ∈ m'.history
  value : ∀ k version, floor ≤ version → m.valueAt k version = m'.valueAt k version
  touches : ∀ k since upto, floor ≤ since →
    historyTouches (m.entries k) since upto = historyTouches (m'.entries k) since upto

omit [DecidableEq K] in
theorem agreeFrom_foldBelow (m : Versioned K V) (floor below : Nat) (h : below ≤ floor) :
    AgreeFrom floor m (m.foldBelow below) where
  current := rfl
  changed := rfl
  keys := fun k => by simp [foldBelow]
  value := fun k version hv => (valueAt_foldBelow m below k version (h.trans hv)).symm
  touches := fun k since upto hs => by
    rw [entries_foldBelow, historyTouches_foldEntries _ _ _ _ (h.trans hs)]

namespace AgreeFrom

variable {floor : Nat} {m m' : Versioned K V}

section

omit [LawfulEqOrd K] [DecidableEq K]

theorem refl (floor : Nat) (m : Versioned K V) : AgreeFrom floor m m :=
  ⟨rfl, rfl, fun _ => Iff.rfl, fun _ _ _ => rfl, fun _ _ _ _ => rfl⟩

variable (h : AgreeFrom floor m m')

include h

theorem symm : AgreeFrom floor m' m :=
  ⟨h.current.symm, h.changed.symm, fun k => (h.keys k).symm,
    fun k version hv => (h.value k version hv).symm,
    fun k since upto hs => (h.touches k since upto hs).symm⟩

theorem trans {m'' : Versioned K V} (h' : AgreeFrom floor m' m'') : AgreeFrom floor m m'' :=
  ⟨h.current.trans h'.current, h.changed.trans h'.changed, fun k => (h.keys k).trans (h'.keys k),
    fun k version hv => (h.value k version hv).trans (h'.value k version hv),
    fun k since upto hs => (h.touches k since upto hs).trans (h'.touches k since upto hs)⟩

theorem mono {floor' : Nat} (hle : floor ≤ floor') : AgreeFrom floor' m m' :=
  ⟨h.current, h.changed, h.keys, fun k version hv => h.value k version (hle.trans hv),
    fun k since upto hs => h.touches k since upto (hle.trans hs)⟩

theorem changedAt_eq (k : K) : m.changedAt k = m'.changedAt k := by
  unfold changedAt
  rw [h.changed]

end

section

variable (h : AgreeFrom floor m m')

include h

theorem valuesAt_eq {version : Nat} (hv : floor ≤ version) :
    m.valuesAt version = m'.valuesAt version := by
  apply ExtTreeMap.ext_getElem?
  intro k
  rw [getElem?_valuesAt, getElem?_valuesAt, h.value k version hv]

theorem keysTouched_eq {since : Nat} (hs : floor ≤ since) (upto : Nat) :
    m.keysTouched since upto = m'.keysTouched since upto := by
  unfold keysTouched
  congr 1
  apply ExtTreeMap.ext_getElem?
  intro k
  rw [getElem?_touched, getElem?_touched, h.touches k since upto hs]

omit [DecidableEq K] in
theorem keys_eq : m.history.keys = m'.history.keys := by
  have hunit : m.history.map (fun _ _ => ()) = m'.history.map (fun _ _ => ()) := by
    apply ExtTreeMap.ext_mem_unit
    intro k
    simp only [ExtTreeMap.mem_map, h.keys k]
  rw [← ExtTreeMap.keys_map (t := m.history) (f := fun _ _ => ()), hunit, ExtTreeMap.keys_map]

theorem write (k : K) (value : Option V) (version : Nat) :
    AgreeFrom floor (m.write k value version) (m'.write k value version) where
  current := by simp only [Versioned.write, h.current]
  changed := by simp only [Versioned.write, h.changed]
  keys := fun a => by simp only [Versioned.write, mem_pushEntry, h.keys a]
  value := fun a read hr => by rw [valueAt_write, valueAt_write, h.value a read hr]
  touches := fun a since upto hs => by
    rw [entries_write, entries_write]
    split
    · rw [historyTouches_append, historyTouches_append, h.touches k since upto hs]
    · exact h.touches a since upto hs

theorem writeAll (version : Nat) (changes : List (K × Option V)) :
    AgreeFrom floor (m.writeAll version changes) (m'.writeAll version changes) := by
  induction changes using List.reverseRecOn with
  | nil => exact h
  | append_singleton changes c ih =>
    rw [writeAll_snoc, writeAll_snoc]
    exact ih.write c.1 c.2 version

end

end AgreeFrom

/-! ## The current values are the history's -/

structure Current (m : Versioned K V) (head : Nat) : Prop where
  value : ∀ k, m.valueAt k head = m.current[k]?
  entries_le : ∀ k, ∀ e ∈ m.entries k, e.1 ≤ m.changedAt k
  changed_le : ∀ k, m.changedAt k ≤ head

omit [LawfulEqOrd K] [DecidableEq K] in
theorem current_empty (head : Nat) : (empty : Versioned K V).Current head where
  value := fun k => by simp [empty, valueAt]
  entries_le := fun k e he => by simp [empty, entries] at he
  changed_le := fun k => by simp [empty, changedAt]

omit [DecidableEq K] in
theorem current_seed (current : ExtTreeMap K V) (head : Nat) : (seed current).Current head where
  value := fun k => by
    rw [valueAt, seed, ExtTreeMap.getElem?_map]
    cases current[k]? <;> simp [historyAt]
  entries_le := fun k e he => by
    rw [entries, seed, ExtTreeMap.getD_eq_getD_getElem?, ExtTreeMap.getElem?_map] at he
    cases hk : current[k]? with
    | none => simp [hk] at he
    | some v =>
      simp only [hk, Option.map_some, Option.getD_some, List.mem_singleton] at he
      simp [he]
  changed_le := fun k => by
    rw [changedAt, seed, ExtTreeMap.getD_eq_getD_getElem?, ExtTreeMap.getElem?_map]
    cases current[k]? <;> simp

namespace Current

variable {m : Versioned K V} {head : Nat}

section

omit [LawfulEqOrd K] [DecidableEq K]

variable (h : m.Current head)

include h

theorem valueAt_of_changed_le {k : K} {version : Nat}
    (hv : m.changedAt k ≤ version) : m.valueAt k version = m.current[k]? := by
  rw [← h.value k, valueAt_eq, valueAt_eq]
  exact historyAt_eq_of_le _ _ _ (fun e he => (h.entries_le k e he).trans hv)
    (fun e he => (h.entries_le k e he).trans (h.changed_le k))

theorem valueAt_of_head_le {k : K} {version : Nat}
    (hv : head ≤ version) : m.valueAt k version = m.current[k]? :=
  h.valueAt_of_changed_le ((h.changed_le k).trans hv)

theorem mono {head' : Nat} (hle : head ≤ head') : m.Current head' where
  value := fun _ => h.valueAt_of_head_le hle
  entries_le := h.entries_le
  changed_le := fun k => (h.changed_le k).trans hle

end

section

variable (h : m.Current head)

include h

theorem write (k : K) (value : Option V) :
    (m.write k value head).Current head where
  value := fun a => by
    rw [valueAt_write, current_write, h.value a]
    by_cases ha : k = a <;> simp [ha]
  entries_le := fun a e he => by
    rw [changedAt_write]
    rw [entries_write] at he
    split
    · rename_i ha
      subst ha
      rw [if_pos rfl] at he
      rcases List.mem_append.mp he with he | he
      · exact (h.entries_le k e he).trans (h.changed_le k)
      · simp at he
        simp [he]
    · rename_i ha
      rw [if_neg ha] at he
      exact h.entries_le a e he
  changed_le := fun a => by
    rw [changedAt_write]
    split
    · exact le_rfl
    · exact h.changed_le a

omit [DecidableEq K] in
theorem foldBelow (floor : Nat) : (m.foldBelow floor).Current head where
  value := fun k => by
    rw [valueAt_eq, entries_foldBelow, historyAt_foldEntries_of_le, ← valueAt_eq]
    · exact h.value k
    · exact fun e he => (h.entries_le k e he).trans (h.changed_le k)
  entries_le := fun k e he => by
    rw [entries_foldBelow] at he
    exact h.entries_le k e (foldEntries_subset _ _ e he)
  changed_le := h.changed_le

theorem writeAll (changes : List (K × Option V)) : (m.writeAll head changes).Current head := by
  induction changes using List.reverseRecOn with
  | nil => exact h
  | append_singleton changes c ih =>
    rw [writeAll_snoc]
    exact ih.write c.1 c.2

theorem getElem?_snapshot {version : Nat} (hv : version ≤ head)
    (k : K) : (m.snapshot head version)[k]? = m.valueAt k version := by
  rw [snapshot]
  split_ifs with hle
  · rw [← h.value, le_antisymm hv hle]
  · exact getElem?_valuesAt m k version

end

end Current

end Versioned

end Slates
