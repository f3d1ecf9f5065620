import Mathlib.Algebra.Order.Group.Abs
import Mathlib.Algebra.Order.Group.Int
import PPView.Grid.GridIndex

/-!
# The search for places in range

`getRangePlace` looks at the cells around that of a centre and keeps the places that are near
enough. Compared with a scan over all places it misses the last column and the last row of the
window, since its loops leave out their last number: below one kilometre it finds nothing at all.
-/

namespace PPView.MJSquareGrid

/-! ## Keys -/

theorem underscore_not_mem_toText (n : ℤ) : '_' ∉ toText n := by
  unfold toText
  split_ifs
  · simp
  · simp

theorem toText_inj {m n : ℤ} (h : toText m = toText n) : m = n := by
  have hminus (k : ℕ) (s : Text) : Nat.toDigits 10 k ≠ '-' :: s := fun heq => by
    have := Nat.isDigit_of_mem_toDigits (b := 10) (n := k) (c := '-') (by omega) (by omega)
      (by simp [heq])
    simp at this
  have hdigits {j k : ℕ} (heq : Nat.toDigits 10 j = Nat.toDigits 10 k) : j = k := by
    rw [← Nat.ofDigitChars_ten_toDigits (n := j), heq, Nat.ofDigitChars_ten_toDigits]
  unfold toText at h
  split_ifs at h with hm hn hn
  · have := hdigits (List.cons.inj h).2
    omega
  · exact absurd h.symm (hminus _ _)
  · exact absurd h (hminus _ _)
  · have := hdigits h
    omega

theorem find_cellKey (x y : ℤ) : Strings.find ['_'] (cellKey x y) = some (toText x).length :=
  Strings.find_singleton_append (underscore_not_mem_toText x)

theorem cellKey_inj {x y x' y' : ℤ} : cellKey x y = cellKey x' y' ↔ x = x' ∧ y = y' := by
  constructor
  · intro h
    have hlen : (toText x).length = (toText x').length := by
      apply Option.some.inj
      rw [← find_cellKey x y, h, find_cellKey]
    obtain ⟨hx, hy⟩ := List.append_inj h hlen
    exact ⟨toText_inj hx, toText_inj (List.cons.inj hy).2⟩
  · rintro ⟨rfl, rfl⟩
    rfl

/-! ## The window -/

variable {sphere : Sphere} {grid : Grid} {places : Text → Option Text} {centre id : Text}
  {lonDu latDu : ℚ} {Dist x y : ℤ}

/-- The columns and rows of the cell of a place. -/
def cell (sphere : Sphere) (mapInfo : Text) : Option (ℤ × ℤ) :=
  (lonLat sphere mapInfo).map fun p => (sphere.cellX p.1 p.2, sphere.cellY p.2)

theorem cellOf_eq_cellKey {mapInfo : Text} {i j : ℤ} :
    cellOf sphere mapInfo = some (cellKey i j) ↔ cell sphere mapInfo = some (i, j) := by
  unfold cellOf cell
  cases lonLat sphere mapInfo <;> simp [cellKey_inj]

/-- Away from the border the window is as wide on both sides. -/
theorem window_of_le {x maxDist minXRange : ℤ} (h : |x| + maxDist ≤ minXRange) (maxXRange : ℤ) :
    window x maxDist minXRange maxXRange = { leftX := x - maxDist, rightX := x + maxDist } := by
  have := neg_abs_le x
  have := le_abs_self x
  simp only [window]
  split_ifs <;> first | rfl | omega

theorem mem_loopRange {first bound i : ℤ} : i ∈ loopRange first bound ↔ first ≤ i ∧ i < bound := by
  simp only [loopRange, List.mem_map, List.mem_range]
  constructor
  · rintro ⟨k, hk, rfl⟩
    omega
  · intro h
    exact ⟨(i - first).toNat, by omega, by omega⟩

theorem mem_idsInCells {leftX rightX downY upY : ℤ} :
    id ∈ idsInCells grid leftX rightX downY upY ↔
      ∃ i j, (leftX ≤ i ∧ i < rightX) ∧ (downY ≤ j ∧ j < upY) ∧
        id ∈ grid.m_gridMap (cellKey i j) := by
  simp only [idsInCells, Finset.mem_biUnion, List.mem_toFinset, mem_loopRange]
  constructor
  · rintro ⟨i, hi, j, hj, hid⟩
    exact ⟨i, j, hi, hj, hid⟩
  · rintro ⟨i, j, hi, hj, hid⟩
    exact ⟨i, hi, j, hj, hid⟩

theorem truncate_intCast (n : ℤ) : truncate n = n := by
  simp [truncate]

/-! ## Against a scan over all places -/

/-- A place near the centre and in its window, in the cell `(i, j)`. -/
structure Seen (sphere : Sphere) (places : Text → Option Text) (centre : Text) (Dist w x y : ℤ)
    (id : Text) (i j : ℤ) : Prop where
  place : ∃ mapInfo, places id = some mapInfo ∧ cell sphere mapInfo = some (i, j) ∧
    sphere.caluateSphereDist centre mapInfo ≤ Dist
  column : |i - x| ≤ w
  row : |j - y| ≤ w

section

/- The centre, its cell as it is read back from the key, and a window that does not reach the border
of its rows. -/
variable (hcentre : lonLat sphere centre = some (lonDu, latDu))
  (hx : sphere.cellX lonDu latDu = x) (hy : sphere.cellY latDu = y)
  (hatofx : sphere.atof (toText x) = x) (hatofy : sphere.atof (toText y) = y)
  (hborder : |x| + maxDist latDu Dist ≤
    minXRange (lonLat2Coord sphere grid lonDu latDu).1 (y - maxDist latDu Dist)
      (y + maxDist latDu Dist))

include hcentre hx hy hatofx hatofy hborder

theorem mem_getRangePlace :
    id ∈ (getRangePlace sphere grid centre Dist ∅).2.2 ↔
      id ∈ idsInCells grid (x - maxDist latDu Dist) (x + maxDist latDu Dist)
          (y - maxDist latDu Dist) (y + maxDist latDu Dist) ∧
        sphere.caluateSphereDist centre ((grid.m_id2MapInfo id).getD []) ≤ Dist := by
  have htake : (cellKey x y).take (toText x).length = toText x := by simp [cellKey]
  have hdrop : (cellKey x y).drop ((toText x).length + 1) = toText y := by simp [cellKey]
  obtain ⟨border, hgrid⟩ := lonLat2Coord_grid sphere grid lonDu latDu
  simp only [getRangePlace, hcentre, lonLat2Coord_key, hx, hy, find_cellKey, htake, hdrop, hatofx,
    hatofy, truncate_intCast, window_of_le hborder]
  simp [hgrid, idsInCells]

variable (hindexed : Indexed sphere grid places) (hrecorded : Recorded sphere grid places)

include hindexed hrecorded

/-- Of the window only the last column and the last row are not searched. -/
theorem mem_getRangePlace_iff :
    id ∈ (getRangePlace sphere grid centre Dist ∅).2.2 ↔
      ∃ i j, Seen sphere places centre Dist (maxDist latDu Dist) x y id i j ∧
        i ≠ x + maxDist latDu Dist ∧ j ≠ y + maxDist latDu Dist := by
  rw [mem_getRangePlace hcentre hx hy hatofx hatofy hborder, mem_idsInCells]
  constructor
  · rintro ⟨⟨i, j, hi, hj, hid⟩, hdist⟩
    obtain ⟨mapInfo, hplace, hcell⟩ := (hindexed id _).mp hid
    rw [(hrecorded.mapInfo id mapInfo hplace).1, Option.getD_some] at hdist
    refine ⟨i, j, ⟨⟨mapInfo, hplace, cellOf_eq_cellKey.mp hcell, hdist⟩, ?_, ?_⟩, ?_, ?_⟩
    · exact abs_le.mpr ⟨by omega, by omega⟩
    · exact abs_le.mpr ⟨by omega, by omega⟩
    · omega
    · omega
  · rintro ⟨i, j, ⟨⟨mapInfo, hplace, hcell, hdist⟩, hcolumn, hrow⟩, hi, hj⟩
    have hcolumn := abs_le.mp hcolumn
    have hrow := abs_le.mp hrow
    refine ⟨⟨i, j, ⟨by omega, by omega⟩, ⟨by omega, by omega⟩, ?_⟩, ?_⟩
    · exact (hindexed id _).mpr ⟨mapInfo, hplace, cellOf_eq_cellKey.mpr hcell⟩
    · rwa [(hrecorded.mapInfo id mapInfo hplace).1, Option.getD_some]

/-- The search finds what a scan finds just where no place that the scan finds is in the last
column or the last row of the window. -/
theorem getRangePlace_eq_scan_iff :
    (∀ id, id ∈ (getRangePlace sphere grid centre Dist ∅).2.2 ↔
        ∃ i j, Seen sphere places centre Dist (maxDist latDu Dist) x y id i j) ↔
      ∀ id i j, Seen sphere places centre Dist (maxDist latDu Dist) x y id i j →
        i ≠ x + maxDist latDu Dist ∧ j ≠ y + maxDist latDu Dist := by
  have hmem (id : Text) : id ∈ (getRangePlace sphere grid centre Dist ∅).2.2 ↔ _ :=
    mem_getRangePlace_iff hcentre hx hy hatofx hatofy hborder hindexed hrecorded
  constructor
  · intro h id i j hseen
    obtain ⟨i', j', ⟨⟨mapInfo', hplace', hcell', -⟩, -, -⟩, hne⟩ :=
      (hmem id).mp ((h id).mpr ⟨i, j, hseen⟩)
    obtain ⟨mapInfo, hplace, hcell, -⟩ := hseen.place
    -- a place is in one cell only
    obtain rfl : mapInfo' = mapInfo := Option.some.inj (hplace'.symm.trans hplace)
    obtain ⟨rfl, rfl⟩ := Prod.mk.inj (Option.some.inj (hcell'.symm.trans hcell))
    exact hne
  · intro h id
    rw [hmem]
    constructor
    · rintro ⟨i, j, hseen, -⟩
      exact ⟨i, j, hseen⟩
    · rintro ⟨i, j, hseen⟩
      exact ⟨i, j, hseen, h id i j hseen⟩

end

/-- The public function gives the ids whose own part has no `#`, taken apart at the first one. -/
theorem mem_getRangePlaceLogo {grid : Grid} {mapInfo id extraLogo : Text}
    {retData : Finset (Text × Text)} :
    (id, extraLogo) ∈ (getRangePlaceLogo sphere grid mapInfo Dist retData).2.2 ↔
      (id, extraLogo) ∈ retData ∨
        logoId id extraLogo ∈ (getRangePlace sphere grid mapInfo Dist ∅).2.2 ∧ '#' ∉ id := by
  simp only [getRangePlaceLogo, Finset.mem_union, Finset.mem_biUnion]
  refine or_congr_right ⟨?_, ?_⟩
  · rintro ⟨gridId, hmem, hparts⟩
    rcases Strings.find_singleton_eq (c := '#') gridId with ⟨hfind, -⟩ | ⟨a, b, rfl, ha, hfind⟩
    · simp [hfind] at hparts
    · obtain ⟨rfl, rfl⟩ : id = a ∧ extraLogo = b := by simpa [hfind] using hparts
      exact ⟨hmem, ha⟩
  · rintro ⟨hmem, hid⟩
    refine ⟨_, hmem, ?_⟩
    simp [logoId, Strings.find_singleton_append hid]

theorem stays_singleton (sphere : Sphere) (call : Call) : Stays sphere [call] := by
  intro before call' behind heq
  obtain ⟨rfl, rfl, -⟩ : before = [] ∧ call' = call ∧ _ := by
    simpa [List.singleton_eq_append_iff] using heq
  cases call' with
  | add id extraLogo mapInfo =>
    intro old hold
    simp [latest] at hold
  | del id extraLogo => trivial

/-- The centre's own cell with a reach of two cells. -/
theorem getRangePlace_eq_scan_iff_equator :
    (∀ id, id ∈ (getRangePlace equator (runCalls equator [.add ['a'] [] ['0', ',', '0']])
          ['0', ',', '0'] 1000 ∅).2.2 ↔
        ∃ i j, Seen equator (latest equator [.add ['a'] [] ['0', ',', '0']]) ['0', ',', '0'] 1000
          (maxDist 0 1000) 0 0 id i j) ↔
      ∀ id i j, Seen equator (latest equator [.add ['a'] [] ['0', ',', '0']]) ['0', ',', '0'] 1000
          (maxDist 0 1000) 0 0 id i j →
        i ≠ 0 + maxDist 0 1000 ∧ j ≠ 0 + maxDist 0 1000 :=
  have hcentre : lonLat equator ['0', ',', '0'] = some (0, 0) := by decide +kernel
  getRangePlace_eq_scan_iff hcentre (by decide +kernel) (by decide +kernel) (by decide +kernel)
    (by decide +kernel) (by decide +kernel) (indexed_runCalls (stays_singleton _ _))
    (recorded_runCalls _)

/-- A place at the centre is not found within half a kilometre. -/
theorem getRangePlace_ne_scan :
    ¬ ∀ (sphere : Sphere) (grid : Grid) (places : Text → Option Text) (centre : Text)
      (lonDu latDu : ℚ) (Dist x y : ℤ), Indexed sphere grid places → Recorded sphere grid places →
      lonLat sphere centre = some (lonDu, latDu) →
      sphere.cellX lonDu latDu = x → sphere.cellY latDu = y →
      sphere.atof (toText x) = x → sphere.atof (toText y) = y → 0 ≤ Dist →
      |x| + maxDist latDu Dist ≤ minXRange (lonLat2Coord sphere grid lonDu latDu).1
        (y - maxDist latDu Dist) (y + maxDist latDu Dist) →
      ∀ id, id ∈ (getRangePlace sphere grid centre Dist ∅).2.2 ↔
        ∃ i j, Seen sphere places centre Dist (maxDist latDu Dist) x y id i j := by
  intro h
  have hfound := (h equator (runCalls equator [.add ['a'] [] ['0', ',', '0']])
    (latest equator [.add ['a'] [] ['0', ',', '0']]) ['0', ',', '0'] 0 0 500 0 0
    (indexed_runCalls (stays_singleton _ _)) (recorded_runCalls _) (by decide +kernel)
    (by decide +kernel) (by decide +kernel) (by decide +kernel) (by decide +kernel) (by decide)
    (by decide +kernel) ['a', '#']).mpr
    ⟨0, 0, ⟨⟨['0', ',', '0'], by decide +kernel, by decide +kernel, by decide +kernel⟩,
      by decide +kernel, by decide +kernel⟩⟩
  revert hfound
  decide +kernel

end PPView.MJSquareGrid
