import ChunkedArray.Proofs.Selection.Broadcast
import Mathlib.Order.Nat
import Mathlib.Tactic.Push
import Mathlib.Tactic.Tauto

/-!
# ChunkedArray.Proofs.Selection.CommonShape

What the common shape of some shapes is, and that their order does not matter.

A row of merges keeps, at every place, the lengths that are not one, and leaves a one where there
is none. This settles the common shape at each place by itself (`Shape.CommonShape`), and speaks
only of which shapes there are. The common shape of a list is therefore that of any other list of
the same shapes, and two of them can be replaced by what they have in common.
-/

namespace ChunkedArray

namespace Shape

/-- At every place, all lengths that are not one are the same. -/
def Compatible (shapes : List Shape) : Prop :=
  ∀ place, ∀ shape ∈ shapes, ∀ other ∈ shapes, shape.lengthAt place ≠ 1 →
    other.lengthAt place ≠ 1 → shape.lengthAt place = other.lengthAt place

/-- A shape is what some shapes have in common: it has the largest rank among them. At every place
it has the length of each of them that is not one, and one where there is none. -/
structure CommonShape (shapes : List Shape) (result : Shape) : Prop where
  rank : result.length = maxRank shapes
  wide : ∀ place, ∀ shape ∈ shapes, shape.lengthAt place ≠ 1 →
    result.lengthAt place = shape.lengthAt place
  ones : ∀ place, (∀ shape ∈ shapes, shape.lengthAt place = 1) → result.lengthAt place = 1

variable {first second merged result : Shape} {shapes others rest : List Shape}

/-! ### The common shape -/

namespace CommonShape

theorem unique (hfirst : CommonShape shapes first) (hsecond : CommonShape shapes second) :
    first = second := by
  refine eq_of_lengthAt (hfirst.rank.trans hsecond.rank.symm) fun place => ?_
  by_cases hones : ∀ shape ∈ shapes, shape.lengthAt place = 1
  · rw [hfirst.ones place hones, hsecond.ones place hones]
  · push Not at hones
    obtain ⟨shape, hmem, hne⟩ := hones
    rw [hfirst.wide place shape hmem hne, hsecond.wide place shape hmem hne]

theorem compatible (h : CommonShape shapes result) : Compatible shapes := by
  intro place shape hshape other hother hne hne'
  rw [← h.wide place shape hshape hne, h.wide place other hother hne']

/-- Only the members of the list matter. -/
theorem congr (h : CommonShape shapes result) (hsame : ∀ shape, shape ∈ others ↔ shape ∈ shapes) :
    CommonShape others result := by
  have hrank : maxRank others = maxRank shapes :=
    eq_of_forall_ge_iff fun bound => by simp only [maxRank_le_iff, hsame]
  refine ⟨h.rank.trans hrank.symm, ?_, ?_⟩
  · simpa only [hsame] using h.wide
  · simpa only [hsame] using h.ones

/-- Two shapes can be replaced by what they have in common. -/
theorem replace (h : CommonShape (first :: second :: rest) result)
    (hmerged : CommonShape [first, second] merged) : CommonShape (merged :: rest) result := by
  have hwide := h.wide
  have hones := h.ones
  have hkept := hmerged.wide
  have hkeptOnes := hmerged.ones
  have hranks := hmerged.rank
  simp only [List.forall_mem_cons] at hwide hones hkept hkeptOnes
  refine ⟨?_, fun place => ?_, fun place => ?_⟩
  · rw [h.rank]
    refine eq_of_forall_ge_iff fun bound => ?_
    simp [maxRank_le_iff, hranks, and_assoc]
  · refine List.forall_mem_cons.mpr ⟨fun hne => ?_, (hwide place).2.2⟩
    -- what is not one in the merged shape is so in one of the two
    by_cases hfirst : first.lengthAt place = 1
    · by_cases hsecond : second.lengthAt place = 1
      · exact absurd (hkeptOnes place ⟨hfirst, hsecond, nofun⟩) hne
      · rw [(hwide place).2.1 hsecond, (hkept place).2.1 hsecond]
    · rw [(hwide place).1 hfirst, (hkept place).1 hfirst]
  · intro hall
    obtain ⟨hone, hrest⟩ := List.forall_mem_cons.mp hall
    refine hones place ⟨?_, ?_, hrest⟩
    · by_contra hne
      exact hne ((hkept place).1 hne ▸ hone)
    · by_contra hne
      exact hne ((hkept place).2.1 hne ▸ hone)

end CommonShape

theorem commonShape_of_broadcast (h : broadcast shapes = .ok result) :
    CommonShape shapes result := by
  rw [broadcast_eq] at h
  split at h
  next block hfold =>
    obtain rfl := Except.ok.inj h
    obtain ⟨hrank, hplaces⟩ := foldlM_merge_keeps (length_padded shapes) hfold
    rw [length_padTo (Nat.zero_le _)] at hrank
    simp only [List.forall_mem_cons, List.forall_mem_map, lengthAt_padTo] at hplaces
    exact ⟨hrank, fun place => (hplaces place).1.2,
      fun place hall => (hplaces place).2 ⟨rfl, hall⟩⟩
  next => cases h

/-- Shapes go together at every place if they agree in pairs. -/
theorem compatible_iff : Compatible shapes ↔ Broadcastable shapes := by
  have hagrees : ∀ a b : UInt64, (a ≠ 1 → b ≠ 1 → a = b) ↔ Agrees a b := by
    intro a b
    simp only [Agrees, ne_eq]
    tauto
  simp only [Compatible, Broadcastable, aligned_iff, hagrees]
  exact ⟨fun h shape hshape other hother place => h place shape hshape other hother,
    fun h place shape hshape other hother => h shape hshape other hother place⟩

theorem broadcast_eq_ok : broadcast shapes = .ok result ↔ CommonShape shapes result := by
  refine ⟨commonShape_of_broadcast, fun h => ?_⟩
  obtain ⟨block, hblock, -⟩ := exists_broadcast (compatible_iff.mp h.compatible)
  rw [hblock, (commonShape_of_broadcast hblock).unique h]

/-- **Shapes have a common shape just where they go together at every place**, and it has the
largest rank and the lengths that are not one. It is the same for every list with the same
shapes, in any order and any number of times. Two of the shapes can be replaced by what they
have in common. -/
theorem broadcast_standard (shapes : List Shape) :
    ((∃ result, broadcast shapes = .ok result) ↔ Compatible shapes) ∧
    (¬ Compatible shapes → broadcast shapes = .error (.incompatibleBroadcast shapes)) ∧
    (∀ result, broadcast shapes = .ok result ↔ CommonShape shapes result) ∧
    (∀ others, (∀ shape, shape ∈ others ↔ shape ∈ shapes) →
      ∀ result, broadcast others = .ok result ↔ broadcast shapes = .ok result) ∧
    ∀ first second rest result, shapes.Perm (first :: second :: rest) →
      broadcast shapes = .ok result → ∃ merged, broadcast [first, second] = .ok merged ∧
        ∀ others, others.Perm (merged :: rest) → broadcast others = .ok result := by
  have hsucceeds : (∃ result, broadcast shapes = .ok result) ↔ Compatible shapes := by
    constructor
    · intro h
      obtain ⟨result, hresult⟩ := h
      exact (broadcast_eq_ok.mp hresult).compatible
    · intro h
      obtain ⟨result, hresult, -⟩ := exists_broadcast (compatible_iff.mp h)
      exact ⟨result, hresult⟩
  refine ⟨hsucceeds, fun hnone => ?_, fun _ => broadcast_eq_ok, fun others hsame result => ?_, ?_⟩
  · rw [← hsucceeds] at hnone
    simp only [broadcast] at hnone ⊢
    split
    next result hfold => exact absurd ⟨result, by rw [hfold]⟩ hnone
    next => rfl
  · rw [broadcast_eq_ok, broadcast_eq_ok]
    exact ⟨fun h => h.congr fun shape => (hsame shape).symm, fun h => h.congr hsame⟩
  · intro first second rest result hperm hresult
    have hlist := (broadcast_eq_ok.mp hresult).congr fun shape => hperm.symm.mem_iff
    have hpair : Compatible [first, second] := by
      intro place shape hshape other hother
      have hmem : ∀ member ∈ [first, second], member ∈ first :: second :: rest := by simp
      exact hlist.compatible place shape (hmem shape hshape) other (hmem other hother)
    obtain ⟨merged, hmerged, -⟩ := exists_broadcast (compatible_iff.mp hpair)
    refine ⟨merged, hmerged, fun others hothers => broadcast_eq_ok.mpr ?_⟩
    exact (hlist.replace (broadcast_eq_ok.mp hmerged)).congr fun shape => hothers.mem_iff

/-- A length of zero counts like any other: it stands against an axis of length one or one that is
missing, and it does not go together with a two. -/
theorem broadcast_standard_vacant :
    broadcast [[2, 1], [0], [], [1, 1, 0]] = .ok [1, 2, 0] ∧
      broadcast [[0], [1, 1, 0], [0], [], [2, 1]] = .ok [1, 2, 0] ∧
      broadcast [[0], [2, 1]] = .ok [2, 0] ∧
      broadcast [[], [2, 0], [1, 1, 0]] = .ok [1, 2, 0] ∧
      ¬ Compatible [[0], [2]] ∧
      broadcast [[0], [2]] = .error (.incompatibleBroadcast [[0], [2]]) := by
  obtain ⟨-, -, -, hsame, hreplace⟩ := broadcast_standard [[2, 1], [0], [], [1, 1, 0]]
  have hresult : broadcast [[2, 1], [0], [], [1, 1, 0]] = .ok [1, 2, 0] := rfl
  have hothers := (hsame [[0], [1, 1, 0], [0], [], [2, 1]] (by grind) [1, 2, 0]).mpr hresult
  obtain ⟨merged, hmerged, hall⟩ :=
    hreplace [0] [2, 1] [[], [1, 1, 0]] [1, 2, 0] (by decide) hresult
  obtain rfl : [2, 0] = merged := Except.ok.inj hmerged
  have hapart : ¬ Compatible [[0], [2]] := by
    intro h
    have hzero := h 0 [0] (by decide) [2] (by decide)
    exact absurd (hzero (by decide) (by decide)) (by decide)
  exact ⟨hresult, hothers, hmerged, hall _ (by decide), hapart,
    (broadcast_standard [[0], [2]]).2.1 hapart⟩

end Shape

end ChunkedArray
