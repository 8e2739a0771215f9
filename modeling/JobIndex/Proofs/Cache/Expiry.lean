import JobIndex.Cache.Store
import JobIndex.Proofs.Path
import JobIndex.Proofs.Table
import Mathlib.Algebra.Group.Int.Defs

/-!
# When an entry of the cache expires

An entry answers for its file until the file has a later time, where times are whole milliseconds
in words (`FileTime.millis`). Of two times that are a millisecond or more apart, the later one has
more whole milliseconds (`FileTime.wholeMillis_lt_iff`), except that what lies less than a
millisecond before the epoch or behind it has none. Words tell such times in their order if the
milliseconds fit them. Beyond, they start again from the least one; `FileTime.turns` counts how
often, and `FileTime.millis_lt_iff` tells their order for any two times. The result is
`ParseCache.lookup_store_later`.
-/

namespace JobIndex

namespace FileTime

variable (t : FileTime) {t₀ t₁ : FileTime}

/-! ### Whole milliseconds -/

/-- The whole milliseconds between the epoch and a time, negative before it. -/
def wholeMillis : Int :=
  t.nanos.tdiv 1000000

/-- A time is less than a millisecond away from the epoch. -/
def AtEpoch : Prop :=
  -1000000 < t.nanos ∧ t.nanos < 1000000

/-- The milliseconds are counted from the epoch on, away from it on both sides. -/
theorem wholeMillis_eq :
  t.wholeMillis = if 0 ≤ t.nanos then t.nanos / 1000000 else -(-t.nanos / 1000000)
  := by
  rw [wholeMillis]
  split
  · next hsign => rw [Int.tdiv_eq_ediv_of_nonneg hsign]
  · next hsign => rw [← Int.tdiv_eq_ediv_of_nonneg (by omega), Int.neg_tdiv, Int.neg_neg]

/-- A time that is later by a millisecond or more has more whole milliseconds, unless both times
have none. -/
theorem wholeMillis_lt_iff (hlater : t₀.nanos + 1000000 ≤ t₁.nanos) :
  t₀.wholeMillis < t₁.wholeMillis ↔ ¬ (t₀.AtEpoch ∧ t₁.AtEpoch)
  := by
  rw [wholeMillis_eq, wholeMillis_eq, AtEpoch, AtEpoch]
  split <;> split <;> omega

/-! ### Milliseconds in words -/

/-- The milliseconds of a time fit a word. -/
def Fits : Prop :=
  -2 ^ 63 ≤ t.wholeMillis ∧ t.wholeMillis < 2 ^ 63

/-- How often words start again before they come to the milliseconds of a time. -/
def turns : Int :=
  (t.wholeMillis + 2 ^ 63) / 2 ^ 64

theorem turns_eq_zero_iff :
  t.turns = 0 ↔ t.Fits
  := by
  rw [turns, Fits]
  omega

theorem toInt_millis :
  t.millis.toInt = t.wholeMillis - 2 ^ 64 * t.turns
  := by
  have hsize : Int64.size = 2 ^ 64 := rfl
  rw [millis, Int64.toInt_ofInt, turns, wholeMillis, Int.bmod, hsize]
  split <;> omega

/-- Words tell two times in their order if there are more milliseconds between them than words pass
when they start again. -/
theorem millis_lt_iff :
  t₀.millis < t₁.millis ↔ 2 ^ 64 * (t₁.turns - t₀.turns) < t₁.wholeMillis - t₀.wholeMillis
  := by
  rw [Int64.lt_iff_toInt_lt, toInt_millis, toInt_millis]
  omega

theorem millis_lt_iff_of_fits (h₀ : t₀.Fits) (h₁ : t₁.Fits) :
  t₀.millis < t₁.millis ↔ t₀.wholeMillis < t₁.wholeMillis
  := by
  rw [millis_lt_iff, t₀.turns_eq_zero_iff.mpr h₀, t₁.turns_eq_zero_iff.mpr h₁]
  omega

end FileTime

namespace ParseCache

/-- What a cache answers for a file whose records have been stored for some time. -/
theorem lookup_store (c : ParseCache) (path : Path) (document : Document)
    (stored modified : Int64) :
  (c.store path stored document).lookup path modified
    = if stored < modified then none else some document
  := by
  rw [lookup, store, Table.get?_put, if_pos BEq.rfl]

/-- Records stored for a time are not used for a time that is later by a millisecond or more, if
words tell the two times in their order. Where the milliseconds of both fit words, this is so unless
both are less than a millisecond away from the epoch. -/
theorem lookup_store_later (c : ParseCache) (path : Path) (document : Document) {t₀ t₁ : FileTime}
    (hlater : t₀.nanos + 1000000 ≤ t₁.nanos) :
  ((c.store path t₀.millis document).lookup path t₁.millis = none ↔ t₀.millis < t₁.millis) ∧
  (t₀.Fits → t₁.Fits → (t₀.millis < t₁.millis ↔ ¬ (t₀.AtEpoch ∧ t₁.AtEpoch))) ∧
  (t₀.millis < t₁.millis
    ↔ 2 ^ 64 * (t₁.turns - t₀.turns) < t₁.wholeMillis - t₀.wholeMillis)
  := by
  refine ⟨?_, ?_, FileTime.millis_lt_iff⟩
  · rw [lookup_store]
    split
    · next hexpired => exact ⟨fun _ => hexpired, fun _ => rfl⟩
    · next hvalid => exact ⟨nofun, fun hexpired => absurd hexpired hvalid⟩
  · intro h₀ h₁
    rw [FileTime.millis_lt_iff_of_fits h₀ h₁, FileTime.wholeMillis_lt_iff hlater]

/-- Two times before the epoch, exactly a millisecond apart, of which the later one has no whole
milliseconds. -/
theorem lookup_store_later_before_epoch :
  let path : Path := ⟨"a.yaml"⟩
  let t₀ : FileTime := ⟨-1500000⟩
  let t₁ : FileTime := ⟨-500000⟩
  t₀.nanos + 1000000 ≤ t₁.nanos ∧ t₀.Fits ∧ t₁.Fits ∧ ¬ (t₀.AtEpoch ∧ t₁.AtEpoch) ∧
    t₀.millis < t₁.millis ∧
    (empty.store path t₀.millis (.empty path)).lookup path t₁.millis = none
  := by
  intro path t₀ t₁
  have hlater : t₀.nanos + 1000000 ≤ t₁.nanos := by decide
  have h₀ : t₀.Fits := by
    unfold FileTime.Fits
    decide
  have h₁ : t₁.Fits := by
    unfold FileTime.Fits
    decide
  have hapart : ¬ (t₀.AtEpoch ∧ t₁.AtEpoch) := by
    unfold FileTime.AtEpoch
    decide
  obtain ⟨hlookup, hfits, -⟩ := lookup_store_later empty path (.empty path) hlater
  have horder := (hfits h₀ h₁).mpr hapart
  exact ⟨hlater, h₀, h₁, hapart, horder, hlookup.mpr horder⟩

/-- Times a millisecond apart that words do not tell in their order, so that the records stored for
the first one are used for the second one: half a millisecond before the epoch and behind it, and
on the two sides of the greatest and of the least number of milliseconds that fits a word. -/
theorem lookup_store_outdated :
  let path : Path := ⟨"a.yaml"⟩
  let outdated (t₀ t₁ : FileTime) : Prop :=
    t₁.nanos = t₀.nanos + 1000000 ∧ ¬ t₀.millis < t₁.millis ∧
      ((empty.store path t₀.millis (.empty path)).lookup path t₁.millis).isSome = true
  outdated ⟨-500000⟩ ⟨500000⟩ ∧
    outdated (.ofParts 9223372036854775 807000000) (.ofParts 9223372036854775 808000000) ∧
    outdated (.ofParts (-9223372036854775) 809000000) (.ofParts (-9223372036854775) 808000000)
  := by
  decide +kernel

end ParseCache

end JobIndex
