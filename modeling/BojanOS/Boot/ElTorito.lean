import BojanOS.Boot.Image

/-!
# The boot image as a firmware reads it

By El Torito the boot record is the volume descriptor in sector 17. It has the sector of the boot
catalog, and the catalog says where the boot image starts and how many sectors of 512 bytes it has.
`build` writes the boot record into sector 16 and the primary volume descriptor into sector 17. In
the catalog, the mark of the validation entry and the fields of the initial entry stand two or three
bytes in front of their places.
-/

namespace BojanOS

open Bytes

namespace Mkiso

/-! ## The reader -/

def sector (image : List UInt8) (lba : Nat) : List UInt8 := slice image (lba * 2048) 2048

/-- A boot record volume descriptor. -/
def IsBootRecord (s : List UInt8) : Prop :=
  slice s 0 7 = 0 :: bytes "CD001" ++ [1] ∧ slice s 7 23 = bytes "EL TORITO SPECIFICATION"

instance (s : List UInt8) : Decidable (IsBootRecord s) := instDecidableAnd

def catalogLba (record : List UInt8) : Nat := leVal (slice record 71 4)

/-- The words of the validation entry sum up to 0. -/
def Checked (catalog : List UInt8) : Prop :=
  ((List.range 16).map fun i => leVal (slice (slice catalog 0 32) (2 * i) 2)).sum % 2 ^ 16 = 0

instance (catalog : List UInt8) : Decidable (Checked catalog) := Nat.decEq _ _

def Marked (catalog : List UInt8) : Prop := slice (slice catalog 0 32) 30 2 = [0x55, 0xAA]

instance (catalog : List UInt8) : Decidable (Marked catalog) := instDecidableEqList _ _

/-- The sectors of 512 bytes that the initial entry asks for, and where they start. -/
def initialCount (catalog : List UInt8) : Nat := leVal (slice (slice catalog 32 32) 6 2)

def initialLba (catalog : List UInt8) : Nat := leVal (slice (slice catalog 32 32) 8 4)

def readCatalog (image catalog : List UInt8) : Option (List UInt8) :=
  if Checked catalog ∧ Marked catalog then
    some (slice image (initialLba catalog * 2048) (initialCount catalog * 512))
  else none

def readBoot (image : List UInt8) : Option (List UInt8) :=
  let record := sector image 17
  if IsBootRecord record then readCatalog image (sector image (catalogLba record)) else none

/-- The reader is led to the catalog that was written, the catalog is in order, and the reader comes
back with the padded boot image. -/
structure ElTorito (kernel boot image : List UInt8) (midx : Nat) : Prop where
  record : catalogLba (sector image 17) = lbaBootcat kernel boot
  checked : Checked (sector image (lbaBootcat kernel boot))
  marked : Marked (sector image (lbaBootcat kernel boot))
  count : initialCount (sector image (lbaBootcat kernel boot)) = bootVsec boot
  lba : initialLba (sector image (lbaBootcat kernel boot)) = LBA_BOOT
  recovered : readBoot image = some (bootimg kernel boot midx)

/-! ## What stands in the two sectors -/

variable {kernel boot image : List UInt8} {midx : Nat}

theorem pvd_spaces : Holds 2048 (pvd kernel boot) 71 [0x20, 0, 0, 0] := by
  refine holds_pvdTail (.setSlice ?_ (by decide) rfl (Nat.le_of_ble_eq_true rfl)) (by decide)
  iterate 6 refine Holds.setSlice ?_ (by decide) rfl (by decide)
  constructor
  · apply setSlice_length (setSlice_length _ rfl (by decide)) rfl (by decide)
    exact set_length (setSlice_length (set_length (zeros_length _)) rfl (by decide))
  · decide +kernel

theorem catalogLba_pvd : catalogLba (pvd kernel boot) = 32 :=
  congrArg leVal pvd_spaces.slice

/-- The descriptor in sector 17 is the primary one. -/
theorem not_isBootRecord_pvd : ¬ IsBootRecord (pvd kernel boot) := by
  intro h
  have htype : slice (pvd kernel boot) 0 1 = [0] := by
    rw [← Nat.zero_add 0, ← slice_slice (by decide : 0 + 1 ≤ 7), h.1]
    rfl
  have hprimary : slice (pvd kernel boot) 0 1 = [1] := pvd_type.slice
  rw [hprimary] at htype
  cases htype

theorem bootcat_validation : Holds 2048 (bootcat boot) 0 validation :=
  .setSlice (.write (zeros_length _) rfl (by decide)) (by decide) rfl (by decide)

theorem slice_validation : slice (bootcat boot) 0 32 = validation := bootcat_validation.slice

theorem slice_entry : slice (bootcat boot) 32 32 =
    setSlice (((zeros 32).set 0 0x88).set 4 (UInt8.ofNat (bootVsec boot))) 5 9 (le32 LBA_BOOT) :=
  (Holds.write (setSlice_length (zeros_length _) rfl (by decide)) rfl
    (Nat.le_of_ble_eq_true rfl)).slice

theorem checked_bootcat : Checked (bootcat boot) := by
  rw [Checked, slice_validation]
  decide +kernel

theorem not_marked_bootcat : ¬ Marked (bootcat boot) := by
  rw [Marked, slice_validation]
  decide +kernel

theorem initialCount_bootcat : initialCount (bootcat boot) = 0 := by
  rw [initialCount, slice_entry]
  rfl

theorem initialLba_bootcat : initialLba (bootcat boot) = 0 := by
  rw [initialLba, slice_entry]
  rfl

theorem build_iso (h : build kernel boot = some image) : ∃ midx, image = iso kernel boot midx ∧
    midx + MARKER.length + 8 ≤ bootVsec boot * 512 ∧ bootVsec boot % 4 = 0 := by
  cases hm : find MARKER boot with
  | none =>
    rw [build, hm] at h
    cases h
  | some midx =>
    obtain ⟨rfl, hle⟩ := build_some hm h
    refine ⟨midx, rfl, hle, ?_⟩
    by_contra h4
    rw [build_eq hm hle, if_neg h4] at h
    cases h

/-- The catalog is the last sector. -/
theorem iso_bootcat (h : midx + MARKER.length + 8 ≤ bootVsec boot * 512)
    (h4 : bootVsec boot % 4 = 0) :
    sector (iso kernel boot midx) (lbaBootcat kernel boot) = bootcat boot := by
  obtain ⟨a, ha⟩ : ∃ a, iso kernel boot midx = a ++ (bootcat boot ++ []) := by
    simp only [iso, ← List.append_assoc, List.append_nil]
    exact ⟨_, rfl⟩
  have hlen : (iso kernel boot midx).length = _ := iso_length
  have htotal : totalSectors kernel boot = _ := totalSectors_eq
  rw [(bootimg_holds h).length, ha, List.length_append, List.append_nil, bootcat_length] at hlen
  rw [totalSectors] at htotal
  rw [sector, ha]
  apply slice_append _ bootcat_length
  omega

/-! ## No image is read -/

/-- In sector 17 a reader does not find the boot record. Sent to the catalog all the same, it misses
the mark, and the initial entry asks for no sectors at all. -/
theorem elTorito_never (h : build kernel boot = some image) :
    readBoot image = none ∧ catalogLba (sector image 17) = 32 ∧
      Checked (sector image (lbaBootcat kernel boot)) ∧
      ¬ Marked (sector image (lbaBootcat kernel boot)) ∧
      initialCount (sector image (lbaBootcat kernel boot)) = 0 ∧
      initialLba (sector image (lbaBootcat kernel boot)) = 0 ∧
      ∀ midx, ¬ ElTorito kernel boot image midx := by
  obtain ⟨midx, rfl, hle, h4⟩ := build_iso h
  have hpvd : sector (iso kernel boot midx) 17 = pvd kernel boot := iso_pvd
  have hread : readBoot (iso kernel boot midx) = none := by
    rw [readBoot, hpvd, if_neg not_isBootRecord_pvd]
  have hmark : ¬ Marked (bootcat boot) := not_marked_bootcat
  rw [hpvd, iso_bootcat hle h4]
  refine ⟨hread, catalogLba_pvd, checked_bootcat, hmark, initialCount_bootcat, initialLba_bootcat,
    fun m H => ?_⟩
  have hrecovered := H.recovered
  rw [hread] at hrecovered
  cases hrecovered

/-- A boot image of one sector and a kernel of one byte. -/
theorem sampleBoot_not_elTorito :
    find MARKER (sampleBoot 8) = some 0 ∧
      build [0xCC] (sampleBoot 8) = some (iso [0xCC] (sampleBoot 8) 0) ∧
      ¬ ElTorito [0xCC] (sampleBoot 8) (iso [0xCC] (sampleBoot 8) 0) 0 := by
  have hm : find MARKER (sampleBoot 8) = some 0 := by decide
  have hle : 0 + MARKER.length + 8 ≤ bootVsec (sampleBoot 8) * 512 := by decide
  refine ⟨hm, by rw [build_eq hm hle, if_pos (by decide)], fun H => ?_⟩
  have hmarked := H.marked
  rw [iso_bootcat hle (by decide)] at hmarked
  exact not_marked_bootcat hmarked

theorem sampleBoot_readBoot :
    build [0xCC] (sampleBoot 8) = some (iso [0xCC] (sampleBoot 8) 0) ∧
      readBoot (iso [0xCC] (sampleBoot 8) 0) = none :=
  have hm : find MARKER (sampleBoot 8) = some 0 := by decide
  have hbuild : build [0xCC] (sampleBoot 8) = some (iso [0xCC] (sampleBoot 8) 0) := by
    rw [build_eq hm (by decide), if_pos (by decide)]
  ⟨hbuild, (elTorito_never hbuild).1⟩

end Mkiso

end BojanOS
