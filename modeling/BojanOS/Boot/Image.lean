import BojanOS.Lib.Bytes

/-!
# The boot image (`mkiso.py`)

`build` lays the parts of the image out one behind the other, and numbers their sectors on its own:
the boot image is counted in sectors of 512 bytes and its place in whole sectors of 2048.
-/

namespace BojanOS

open Bytes

namespace Mkiso

/-- ASCII -/
def bytes (s : String) : List UInt8 := s.toList.map fun c => UInt8.ofNat c.toNat

/-- `s.ljust(n, b" ")` -/
def ljust (s : List UInt8) (n : Nat) : List UInt8 := s ++ List.replicate (n - s.length) 0x20

def zeros (n : Nat) : List UInt8 := List.replicate n 0

def le16 (v : Nat) : List UInt8 := le 2 v
def le32 (v : Nat) : List UInt8 := le 4 v
def be16 (v : Nat) : List UInt8 := (le 2 v).reverse
def be32 (v : Nat) : List UInt8 := (le 4 v).reverse
def both16 (v : Nat) : List UInt8 := le16 v ++ be16 v
def both32 (v : Nat) : List UInt8 := le32 v ++ be32 v

/-- The names are short enough for the length byte. -/
def dirRec (lba size : Nat) (name : List UInt8) (isDir : Bool) : List UInt8 :=
  let recLen := 33 + name.length
  let recLen := if recLen % 2 = 1 then recLen + 1 else recLen
  [UInt8.ofNat recLen, 0] ++ both32 lba ++ both32 size ++ zeros 7 ++ [if isDir then 2 else 0] ++
    [0, 0] ++ both16 1 ++ [1] ++ name ++ if name.length % 2 = 0 then [0] else []

def rootRec (lba size : Nat) : List UInt8 :=
  let r := zeros 34
  let r := r.set 0 34
  let r := setSlice r 2 10 (both32 lba)
  let r := setSlice r 10 18 (both32 size)
  let r := r.set 25 2
  let r := setSlice r 28 30 (le16 1)
  setSlice r 30 32 (be16 1)

def pathRec (lba : Nat) (little : Bool) : List UInt8 :=
  let r := [1, 0] ++ (if little then le32 lba else be32 lba) ++
    (if little then le16 1 else be16 1) ++ [0, 0]
  if r.length % 2 = 1 then r ++ [0] else r

def MARKER : List UInt8 := bytes "BOJANBOOT"

def KERNEL_NAME : List UInt8 := bytes "KERNEL.BIN;1"

/-! ## The layout -/

def bootVsec (boot : List UInt8) : Nat := max ((boot.length + 511) / 512) 4

def kernelVsec (kernel : List UInt8) : Nat := (kernel.length + 2047) / 2048

def LBA_PVD : Nat := 17
def LBA_BOOT : Nat := 19

section layout

variable (kernel boot : List UInt8)

def lbaKernel : Nat := LBA_BOOT + bootVsec boot / 4
def lbaRoot : Nat := lbaKernel boot + kernelVsec kernel
def lbaPtle : Nat := lbaRoot kernel boot + 1
def lbaPtbe : Nat := lbaPtle kernel boot + 1
def lbaBootcat : Nat := lbaPtbe kernel boot + 1
def totalSectors : Nat := lbaBootcat kernel boot + 1

/-! ## The parts -/

/-- The boot image padded to whole sectors of 512 bytes. -/
def padded : List UInt8 :=
  let bootimg := boot.take (bootVsec boot * 512)
  if bootimg.length < bootVsec boot * 512 then
    bootimg ++ zeros (bootVsec boot * 512 - bootimg.length)
  else bootimg

def patch : List UInt8 := le32 (lbaKernel boot) ++ le32 (kernelVsec kernel)

/-- The boot image with the patch behind the marker at `midx`. -/
def bootimg (midx : Nat) : List UInt8 :=
  setSlice (padded boot) (midx + MARKER.length) (midx + MARKER.length + 8) (patch kernel boot)

def root : List UInt8 :=
  let root := rootRec (lbaRoot kernel boot) 2048 ++ dirRec (lbaRoot kernel boot) 2048 [1] true ++
    dirRec (lbaKernel boot) kernel.length KERNEL_NAME false
  root ++ zeros (2048 - root.length)

/-- The validation entry of the boot catalog. -/
def validation : List UInt8 :=
  let v := zeros 32
  let v := v.set 0 1
  let v := v.set 1 0
  let v := setSlice v 2 7 (bytes "CD001")
  let v := v.set 7 1
  let v := setSlice v 8 32 (ljust (bytes "BojanOS") 24)
  let v := setSlice v 28 30 (le16 0xAA55)
  let v := setSlice v 26 28 [0, 0]
  let s := ((List.range 16).map fun i => leVal (slice v (2 * i) 2)).sum
  let chk := (2 ^ 16 - s % 2 ^ 16) % 2 ^ 16
  setSlice v 26 28 (le16 chk)

def bootcat : List UInt8 :=
  let e := zeros 32
  let e := e.set 0 0x88
  let e := e.set 4 (UInt8.ofNat (bootVsec boot))
  let e := setSlice e 5 9 (le32 LBA_BOOT)
  setSlice (setSlice (zeros 2048) 0 32 validation) 32 64 e

def pvd : List UInt8 :=
  let pvd := zeros 2048
  let pvd := pvd.set 0 1
  let pvd := setSlice pvd 1 6 (bytes "CD001")
  let pvd := pvd.set 6 1
  let pvd := setSlice pvd 8 40 (ljust (bytes "BojanOS") 32)
  let pvd := setSlice pvd 40 72 (ljust [] 32)
  let pvd := setSlice pvd 80 88 (both32 (totalSectors kernel boot))
  let pvd := setSlice pvd 120 124 (both16 2048)
  let pvd := setSlice pvd 132 140 (both32 (lbaPtle kernel boot))
  let pvd := setSlice pvd 140 144 (le32 0)
  let pvd := setSlice pvd 144 152 (both32 (lbaPtbe kernel boot))
  let pvd := setSlice pvd 152 156 (be32 0)
  let rr := rootRec (lbaRoot kernel boot) 2048
  let pvd := setSlice pvd 156 (156 + rr.length) rr
  let pvd := setSlice pvd 190 318 (ljust [] 128)
  let pvd := setSlice pvd 318 446 (ljust [] 128)
  let pvd := setSlice pvd 446 574 (ljust [] 128)
  let pvd := setSlice pvd 648 650 (le16 1)
  setSlice pvd 650 652 (be16 1)

def vdt : List UInt8 :=
  let vdt := zeros 2048
  let vdt := vdt.set 0 255
  let vdt := setSlice vdt 1 6 (bytes "CD001")
  vdt.set 6 1

def br : List UInt8 :=
  let br := zeros 2048
  let br := br.set 0 0
  let br := setSlice br 1 6 (bytes "CD001")
  let br := br.set 6 1
  let br := setSlice br 7 39 (ljust (bytes "EL TORITO SPECIFICATION") 32)
  setSlice br 71 75 (le32 (lbaBootcat kernel boot))

def iso (midx : Nat) : List UInt8 :=
  let ptLe := pathRec (lbaRoot kernel boot) true
  let ptBe := pathRec (lbaRoot kernel boot) false
  zeros (16 * 2048) ++ (br kernel boot ++ (pvd kernel boot ++ (vdt ++ (bootimg kernel boot midx ++
    ((kernel ++ zeros (kernelVsec kernel * 2048 - kernel.length)) ++ (root kernel boot ++
      ((ptLe ++ zeros (2048 - ptLe.length)) ++ ((ptBe ++ zeros (2048 - ptBe.length)) ++
        bootcat boot))))))))

/-- The image that is written; `none` is an abort (no marker, or `layout mismatch`). -/
def build : Option (List UInt8) :=
  match find MARKER boot with
  | none => none
  | some midx =>
    let at8 := slice (bootimg kernel boot midx) (midx + MARKER.length) 8
    if at8 ≠ patch kernel boot then none
    else if (iso kernel boot midx).length ≠ totalSectors kernel boot * 2048 then none
    else some (iso kernel boot midx)

end layout

/-! ## What is asked of the image -/

/-- The words that the image has behind the marker. -/
def patchedLba (image : List UInt8) (midx : Nat) : Nat :=
  leVal (slice image (LBA_BOOT * 2048 + (midx + MARKER.length)) 4)

def patchedCount (image : List UInt8) (midx : Nat) : Nat :=
  leVal (slice image (LBA_BOOT * 2048 + (midx + MARKER.length + 4)) 4)

/-- The extent of the root directory, by the record in the volume descriptor. -/
def rootDir (image : List UInt8) : List UInt8 :=
  let rr := slice image (LBA_PVD * 2048 + 156) 34
  slice image (leVal (slice rr 2 4) * 2048) (leVal (slice rr 10 4))

/-- The records of a directory, from one to the next by the length byte. -/
def recordsUpTo : Nat → List UInt8 → List (List UInt8)
  | 0, _ => []
  | _ + 1, [] => []
  | k + 1, n :: d =>
    if n = 0 then [] else (n :: d).take n.toNat :: recordsUpTo k ((n :: d).drop n.toNat)

def records (dir : List UInt8) : List (List UInt8) := recordsUpTo dir.length dir

/-- The name stands in the record where `dir_rec` puts it. -/
def StoredName (r : List UInt8) : Prop := KERNEL_NAME <+: r.drop 33

/-- The name is the identifier of the record, with its length byte. -/
def IdentifierName (r : List UInt8) : Prop := slice r 33 (r.getD 32 0).toNat = KERNEL_NAME

structure ImageOk (named : List UInt8 → Prop) (kernel boot image : List UInt8) (midx : Nat) :
    Prop where
  sectors : slice image (patchedLba image midx * 2048) (patchedCount image midx * 2048) =
    kernel ++ zeros (patchedCount image midx * 2048 - kernel.length)
  volume : slice image (LBA_PVD * 2048) 1 = [1] ∧ slice image (LBA_PVD * 2048 + 1) 5 = bytes "CD001"
  file : ∃ r ∈ records (rootDir image), named r ∧ leVal (slice r 2 4) = patchedLba image midx ∧
    leVal (slice r 10 4) = kernel.length
  bootImage : slice image (LBA_BOOT * 2048) boot.length = setSlice boot (midx + MARKER.length)
    (midx + MARKER.length + 8) (patch kernel boot)
  length : image.length = totalSectors kernel boot * 2048

/-- An image is written, and it is as it should be. -/
def BuildOk (named : List UInt8 → Prop) (kernel boot : List UInt8) : Prop :=
  ∃ image midx, build kernel boot = some image ∧ find MARKER boot = some midx ∧
    ImageOk named kernel boot image midx

/-! ## The lengths of the parts -/

variable {kernel boot : List UInt8} {midx : Nat}

theorem zeros_length (n : Nat) : (zeros n).length = n := List.length_replicate

theorem ljust_length {s : List UInt8} {n : Nat} (h : s.length ≤ n) : (ljust s n).length = n := by
  rw [ljust, List.length_append, List.length_replicate, Nat.add_sub_cancel' h]

theorem vdt_length : vdt.length = 2048 :=
  set_length (setSlice_length (set_length (zeros_length _)) rfl (by decide))

theorem bootcat_length : (bootcat boot).length = 2048 :=
  setSlice_length (setSlice_length (zeros_length _) rfl (by decide)) rfl (by decide)

theorem br_length : (br kernel boot).length = 2048 := by
  refine setSlice_length (setSlice_length (set_length ?_) rfl (by decide)) rfl (by decide)
  exact setSlice_length (set_length (zeros_length _)) rfl (by decide)

theorem rootRec_length (lba size : Nat) : (rootRec lba size).length = 34 := by
  refine setSlice_length (setSlice_length (set_length ?_) rfl (by decide)) rfl (by decide)
  refine setSlice_length (setSlice_length (set_length (zeros_length _)) ?_ (by decide)) ?_ (by decide)
  · rfl
  · rfl

/-- What is written behind the root record of the volume descriptor. -/
theorem holds_pvdTail {l : List UInt8} {k : Nat} {y : List UInt8} (h : Holds 2048 l k y)
    (hk : k + y.length ≤ 190) :
    Holds 2048 (setSlice (setSlice (setSlice (setSlice (setSlice l 190 318 (ljust [] 128))
      318 446 (ljust [] 128)) 446 574 (ljust [] 128)) 648 650 (le16 1)) 650 652 (be16 1)) k y := by
  have hlen : (ljust [] 128).length = 128 := ljust_length (Nat.zero_le _)
  have h1 : Holds 2048 (setSlice l 190 318 (ljust [] 128)) k y :=
    h.setSlice hk (by rw [hlen]) (by decide)
  have h2 := h1.setSlice (i := 318) (j := 446) (by omega) (by rw [hlen]) (by decide)
  have h3 := h2.setSlice (i := 446) (j := 574) (by omega) (by rw [hlen]) (by decide)
  exact (h3.setSlice (by omega) rfl (by decide)).setSlice (by omega) rfl (by decide)

theorem pvd_root : Holds 2048 (pvd kernel boot) 156 (rootRec (lbaRoot kernel boot) 2048) := by
  have hlen := rootRec_length (lbaRoot kernel boot) 2048
  refine holds_pvdTail (.write ?_ rfl (by omega)) (by omega)
  iterate 8 refine setSlice_length ?_ rfl (by decide)
  exact set_length (setSlice_length (set_length (zeros_length _)) rfl (by decide))

theorem pvd_type : Holds 2048 (pvd kernel boot) 0 [1] := by
  have hlen := rootRec_length (lbaRoot kernel boot) 2048
  refine holds_pvdTail (.setSlice ?_ (by decide) rfl (by omega)) (by decide)
  iterate 8 refine Holds.setSlice ?_ (by decide) rfl (by decide)
  exact .set (.setSlice (.writeByte (zeros_length _) (by decide)) (by decide) rfl (by decide))
    (by decide)

theorem pvd_identifier : Holds 2048 (pvd kernel boot) 1 (bytes "CD001") := by
  have hlen := rootRec_length (lbaRoot kernel boot) 2048
  refine holds_pvdTail (.setSlice ?_ (by decide) rfl (by omega)) (by decide)
  iterate 8 refine Holds.setSlice ?_ (by decide) rfl (by decide)
  exact .set (.write (set_length (zeros_length _)) rfl (by decide)) (by decide)

theorem length_le_padded (boot : List UInt8) : boot.length ≤ bootVsec boot * 512 := by
  rw [bootVsec]
  omega

theorem padded_eq : padded boot = boot ++ zeros (bootVsec boot * 512 - boot.length) := by
  have hle := length_le_padded boot
  rw [padded, List.take_of_length_le hle]
  split
  · rfl
  · rename_i hno
    have h0 : bootVsec boot * 512 - boot.length = 0 := by omega
    rw [h0]
    exact (List.append_nil boot).symm

theorem padded_length : (padded boot).length = bootVsec boot * 512 := by
  have hle := length_le_padded boot
  rw [padded_eq, List.length_append, zeros_length]
  omega

/-- The patch fits behind the marker. -/
theorem bootimg_holds (h : midx + MARKER.length + 8 ≤ bootVsec boot * 512) :
    Holds (bootVsec boot * 512) (bootimg kernel boot midx) (midx + MARKER.length)
      (patch kernel boot) := .write padded_length rfl h

def dotRecord (kernel boot : List UInt8) : List UInt8 :=
  dirRec (lbaRoot kernel boot) 2048 [1] true

def kernelRecord (kernel boot : List UInt8) : List UInt8 :=
  dirRec (lbaKernel boot) kernel.length KERNEL_NAME false

theorem dirRec_length (lba size : Nat) (name : List UInt8) (isDir : Bool) :
    (dirRec lba size name isDir).length = 33 + name.length + (name.length + 1) % 2 := by
  have h32 : ∀ v, (both32 v).length = 8 := fun _ => rfl
  have h16 : ∀ v, (both16 v).length = 4 := fun _ => rfl
  simp only [dirRec, List.length_append, h32, h16, zeros_length, List.length_cons, List.length_nil]
  split
  · rw [List.length_singleton]
    omega
  · rw [List.length_nil]
    omega

/-! The fields of the records that a reader looks at. -/

section

variable (lba size : Nat) (name : List UInt8) (isDir : Bool)

theorem rootRec_lba : slice (rootRec lba size) 2 4 = le32 lba := rfl

theorem rootRec_size : slice (rootRec lba size) 10 4 = le32 size := rfl

theorem rootRec_nameLength : (rootRec lba size).getD 32 0 = 0 := rfl

theorem dirRec_lba : slice (dirRec lba size name isDir) 2 4 = le32 lba := rfl

theorem dirRec_size : slice (dirRec lba size name isDir) 10 4 = le32 size := rfl

theorem dirRec_nameLength : (dirRec lba size name isDir).getD 32 0 = 1 := rfl

theorem dirRec_name : (dirRec lba size name isDir).drop 33 =
    name ++ if name.length % 2 = 0 then [0] else [] := rfl

end

theorem dotRecord_length : (dotRecord kernel boot).length = 34 := dirRec_length ..

theorem kernelRecord_length : (kernelRecord kernel boot).length = 46 := by
  have hname : KERNEL_NAME.length = 12 := by decide
  rw [kernelRecord, dirRec_length, hname]

theorem rootRecords_length : (rootRec (lbaRoot kernel boot) 2048 ++ dotRecord kernel boot ++
    kernelRecord kernel boot).length = 114 := by
  rw [List.length_append, List.length_append, rootRec_length, dotRecord_length,
    kernelRecord_length]

theorem root_eq : root kernel boot = (rootRec (lbaRoot kernel boot) 2048 ++ dotRecord kernel boot ++
    kernelRecord kernel boot) ++ zeros (2048 - 114) := by
  rw [← rootRecords_length, root, dotRecord, kernelRecord]

theorem root_length : (root kernel boot).length = 2048 := by
  rw [root_eq, List.length_append, rootRecords_length, zeros_length]

theorem path_length (kernel boot : List UInt8) (little : Bool) :
    (pathRec (lbaRoot kernel boot) little ++
    zeros (2048 - (pathRec (lbaRoot kernel boot) little).length)).length = 2048 := by
  have hlen : (pathRec (lbaRoot kernel boot) little).length = 10 := by
    cases little <;> simp [pathRec, le32, le16, be32, be16]
  rw [List.length_append, hlen, zeros_length]

theorem kernelVsec_le (kernel : List UInt8) : kernel.length ≤ kernelVsec kernel * 2048 := by
  rw [kernelVsec]
  omega

theorem iso_length : (iso kernel boot midx).length =
    23 * 2048 + (bootimg kernel boot midx).length + kernelVsec kernel * 2048 := by
  have hk := kernelVsec_le kernel
  have hle := path_length kernel boot true
  have hbe := path_length kernel boot false
  rw [List.length_append] at hle hbe
  simp only [iso, List.length_append, br_length, pvd_type.length, vdt_length, root_length,
    bootcat_length, hle, hbe]
  rw [zeros_length, zeros_length]
  omega

theorem totalSectors_eq :
    totalSectors kernel boot = 23 + bootVsec boot / 4 + kernelVsec kernel := by
  simp only [totalSectors, lbaBootcat, lbaPtbe, lbaPtle, lbaRoot, lbaKernel, LBA_BOOT]
  omega

theorem build_eq (hm : find MARKER boot = some midx)
    (h : midx + MARKER.length + 8 ≤ bootVsec boot * 512) : build kernel boot =
      if bootVsec boot % 4 = 0 then some (iso kernel boot midx) else none := by
  have hpatch : slice (bootimg kernel boot midx) (midx + MARKER.length) 8 = patch kernel boot :=
    (bootimg_holds h).slice
  rw [build, hm]
  simp only
  rw [hpatch, if_neg (not_not.mpr rfl), iso_length, (bootimg_holds h).length, totalSectors_eq]
  by_cases h4 : bootVsec boot % 4 = 0
  · rw [if_pos h4, if_neg (by omega)]
  · rw [if_neg h4, if_pos (by omega)]

/-- In an image that is written there was room for the patch. -/
theorem build_some {image : List UInt8} (hm : find MARKER boot = some midx)
    (h : build kernel boot = some image) :
    image = iso kernel boot midx ∧ midx + MARKER.length + 8 ≤ bootVsec boot * 512 := by
  rw [build, hm] at h
  simp only at h
  split at h
  · cases h
  split at h
  · cases h
  rename_i hlen
  rw [not_not, iso_length, totalSectors_eq] at hlen
  refine ⟨(Option.some.inj h).symm, ?_⟩
  -- behind the end, the patch would make the boot image longer
  have hboot : (bootimg kernel boot midx).length =
      min (midx + MARKER.length) (bootVsec boot * 512) +
        (8 + (bootVsec boot * 512 - (midx + MARKER.length + 8))) := by
    rw [bootimg, setSlice, List.length_append, List.length_append, List.length_take,
      List.length_drop, padded_length]
    rfl
  obtain ⟨a, b, hab, hlena⟩ := find_spec hm
  have hmarker : midx + MARKER.length ≤ bootVsec boot * 512 := by
    refine Nat.le_trans ?_ (length_le_padded boot)
    rw [hab, List.length_append, List.length_append, hlena]
    omega
  omega

/-! ## Where the parts stand -/

theorem iso_pvd : slice (iso kernel boot midx) (LBA_PVD * 2048) 2048 = pvd kernel boot := by
  rw [iso, ← List.append_assoc]
  refine slice_append ?_ pvd_type.length
  rw [List.length_append, zeros_length, br_length]
  rfl

/-- What stands in front of the boot image. -/
def front (kernel boot : List UInt8) : List UInt8 :=
  zeros (16 * 2048) ++ (br kernel boot ++ (pvd kernel boot ++ vdt))

theorem front_length : (front kernel boot).length = LBA_BOOT * 2048 := by
  rw [front, List.length_append, List.length_append, List.length_append, zeros_length, br_length,
    pvd_type.length, vdt_length]
  rfl

def kernelPart (kernel : List UInt8) : List UInt8 :=
  kernel ++ zeros (kernelVsec kernel * 2048 - kernel.length)

theorem kernelPart_length : (kernelPart kernel).length = kernelVsec kernel * 2048 := by
  rw [kernelPart, List.length_append, zeros_length, Nat.add_sub_cancel' (kernelVsec_le kernel)]

theorem iso_split (kernel boot : List UInt8) (midx : Nat) :
    ∃ tail, iso kernel boot midx = front kernel boot ++
    (bootimg kernel boot midx ++ (kernelPart kernel ++ (root kernel boot ++ tail))) := by
  refine ⟨(pathRec (lbaRoot kernel boot) true ++
    zeros (2048 - (pathRec (lbaRoot kernel boot) true).length)) ++
    ((pathRec (lbaRoot kernel boot) false ++
      zeros (2048 - (pathRec (lbaRoot kernel boot) false).length)) ++ bootcat boot), ?_⟩
  simp only [iso, front, kernelPart, List.append_assoc]

section parts

variable (h : midx + MARKER.length + 8 ≤ bootVsec boot * 512)
include h

theorem iso_bootimg : slice (iso kernel boot midx) (LBA_BOOT * 2048) (bootVsec boot * 512) =
    bootimg kernel boot midx := by
  obtain ⟨tail, htail⟩ := iso_split kernel boot midx
  rw [htail]
  exact slice_append front_length (bootimg_holds h).length

/-- With whole sectors, the kernel stands where it is expected. -/
theorem iso_kernel (h4 : bootVsec boot % 4 = 0) :
    slice (iso kernel boot midx) (lbaKernel boot * 2048) (kernelVsec kernel * 2048) =
      kernelPart kernel := by
  obtain ⟨tail, htail⟩ := iso_split kernel boot midx
  rw [htail, ← List.append_assoc]
  refine slice_append ?_ kernelPart_length
  rw [List.length_append, front_length, (bootimg_holds h).length, lbaKernel]
  omega

theorem iso_root (h4 : bootVsec boot % 4 = 0) :
    slice (iso kernel boot midx) (lbaRoot kernel boot * 2048) 2048 = root kernel boot := by
  obtain ⟨tail, htail⟩ := iso_split kernel boot midx
  rw [htail, ← List.append_assoc, ← List.append_assoc]
  refine slice_append ?_ root_length
  rw [List.length_append, List.length_append, front_length, (bootimg_holds h).length,
    kernelPart_length, lbaRoot, lbaKernel]
  omega

/-! ## What is read in the image -/

theorem iso_patch : slice (iso kernel boot midx) (LBA_BOOT * 2048 + (midx + MARKER.length)) 8 =
    patch kernel boot := by
  rw [← slice_slice h, iso_bootimg h]
  exact (bootimg_holds h).slice

theorem iso_patchedLba (hlba : lbaKernel boot < 2 ^ 32) :
    patchedLba (iso kernel boot midx) midx = lbaKernel boot := by
  have hsub := slice_slice (l := iso kernel boot midx) (i := LBA_BOOT * 2048 + (midx + MARKER.length))
    (n := 8) (k := 0) (m := 4) (by decide)
  rw [iso_patch h, Nat.add_zero] at hsub
  rw [patchedLba, ← hsub]
  exact leVal_le_of_lt (n := 4) hlba

theorem iso_patchedCount (hcount : kernelVsec kernel < 2 ^ 32) :
    patchedCount (iso kernel boot midx) midx = kernelVsec kernel := by
  have hsub := slice_slice (l := iso kernel boot midx) (i := LBA_BOOT * 2048 + (midx + MARKER.length))
    (n := 8) (k := 4) (m := 4) (by decide)
  rw [iso_patch h, Nat.add_assoc] at hsub
  rw [patchedCount, ← hsub]
  exact leVal_le_of_lt (n := 4) hcount

theorem iso_boot (hroom : midx + MARKER.length + 8 ≤ boot.length) :
    slice (iso kernel boot midx) (LBA_BOOT * 2048) boot.length =
    setSlice boot (midx + MARKER.length) (midx + MARKER.length + 8) (patch kernel boot) := by
  have hle : 0 + boot.length ≤ bootVsec boot * 512 := by
    rw [Nat.zero_add]
    exact length_le_padded boot
  have hsub := slice_slice (l := iso kernel boot midx) (i := LBA_BOOT * 2048) hle
  rw [iso_bootimg h, Nat.add_zero] at hsub
  have hlen : (setSlice boot (midx + MARKER.length) (midx + MARKER.length + 8)
      (patch kernel boot)).length = boot.length := setSlice_length rfl rfl hroom
  rw [← hsub, bootimg, padded_eq, setSlice_append (Nat.le_add_right _ _) hroom]
  exact slice_append (a := []) rfl hlen

/-! ## The root directory -/

theorem iso_rootDir (h4 : bootVsec boot % 4 = 0) (hlba : lbaRoot kernel boot < 2 ^ 32) :
    rootDir (iso kernel boot midx) = root kernel boot := by
  have hrr : slice (iso kernel boot midx) (LBA_PVD * 2048 + 156) 34 =
      rootRec (lbaRoot kernel boot) 2048 := by
    rw [← slice_slice (by decide : 156 + 34 ≤ 2048), iso_pvd]
    exact pvd_root.slice
  have hbase : leVal (slice (rootRec (lbaRoot kernel boot) 2048) 2 4) = lbaRoot kernel boot := by
    rw [rootRec_lba]
    exact leVal_le_of_lt (n := 4) hlba
  have hsize : leVal (slice (rootRec (lbaRoot kernel boot) 2048) 10 4) = 2048 := by
    rw [rootRec_size]
    rfl
  rw [rootDir, hrr, hbase, hsize, iso_root h h4]

end parts

/-- A record with the right length byte, in front of others. -/
theorem recordsUpTo_append {k : Nat} {r rest : List UInt8} (hr : r.headD 0 ≠ 0)
    (hlen : r.length = (r.headD 0).toNat) :
    recordsUpTo (k + 1) (r ++ rest) = r :: recordsUpTo k rest := by
  cases r with
  | nil => exact absurd rfl hr
  | cons n d =>
    have hn : n ≠ 0 := hr
    have hn' : n.toNat = (n :: d).length := hlen.symm
    rw [List.cons_append, recordsUpTo, if_neg hn, ← List.cons_append, hn', List.take_left,
      List.drop_left]

theorem records_root : records (root kernel boot) =
    [rootRec (lbaRoot kernel boot) 2048, dotRecord kernel boot, kernelRecord kernel boot] := by
  have hzeros : zeros (2048 - 114) = 0 :: zeros 1933 := rfl
  have hdir : (34 : UInt8) ≠ 0 := by decide
  have hfile : (46 : UInt8) ≠ 0 := by decide
  have hwalk : ∀ k, recordsUpTo (k + 1 + 1 + 1 + 1) (root kernel boot) =
      [rootRec (lbaRoot kernel boot) 2048, dotRecord kernel boot, kernelRecord kernel boot] := by
    intro k
    rw [root_eq, List.append_assoc, List.append_assoc,
      recordsUpTo_append (r := rootRec (lbaRoot kernel boot) 2048) hdir (rootRec_length ..),
      recordsUpTo_append (r := dotRecord kernel boot) hdir dotRecord_length,
      recordsUpTo_append (r := kernelRecord kernel boot) hfile kernelRecord_length, hzeros,
      recordsUpTo, if_pos rfl]
  rw [records, root_length]
  exact hwalk 2044

/-- The length byte of every name is 1 or 0. -/
theorem not_identifierName {r : List UInt8} (hr : r ∈ records (root kernel boot)) :
    ¬ IdentifierName r := by
  have hshort : (r.getD 32 0).toNat ≤ 1 := by
    rw [records_root] at hr
    simp only [List.mem_cons, List.not_mem_nil, or_false] at hr
    rcases hr with rfl | rfl | rfl
    · rw [rootRec_nameLength]
      decide
    · rw [dotRecord, dirRec_nameLength]
      decide
    · rw [kernelRecord, dirRec_nameLength]
      decide
  intro h
  have hlen := congrArg List.length h
  have hname : KERNEL_NAME.length = 12 := by decide
  rw [slice, List.length_take, hname] at hlen
  omega

/-! ## When the image is right -/

theorem imageOk_iso (hlen : kernel.length < 2 ^ 32)
    (hroom : midx + MARKER.length + 8 ≤ boot.length)
    (h4 : bootVsec boot % 4 = 0) (hlba : lbaRoot kernel boot < 2 ^ 32) :
    ImageOk StoredName kernel boot (iso kernel boot midx) midx where
  sectors := by
    have h := hroom.trans (length_le_padded boot)
    have hcount : kernelVsec kernel < 2 ^ 32 := Nat.lt_of_le_of_lt (Nat.le_add_left _ _) hlba
    have hstart : lbaKernel boot < 2 ^ 32 := Nat.lt_of_le_of_lt (Nat.le_add_right _ _) hlba
    rw [iso_patchedLba h hstart, iso_patchedCount h hcount, iso_kernel h h4, kernelPart]
  volume := by
    constructor
    · have hsub := slice_slice (l := iso kernel boot midx) (i := LBA_PVD * 2048)
        (by decide : 0 + 1 ≤ 2048)
      rw [iso_pvd, Nat.add_zero] at hsub
      exact hsub.symm.trans pvd_type.slice
    · rw [← slice_slice (by decide : 1 + 5 ≤ 2048), iso_pvd]
      exact pvd_identifier.slice
  file := by
    have h := hroom.trans (length_le_padded boot)
    have hstart : lbaKernel boot < 2 ^ 32 := Nat.lt_of_le_of_lt (Nat.le_add_right _ _) hlba
    rw [iso_rootDir h h4 hlba, records_root, iso_patchedLba h hstart]
    refine ⟨kernelRecord kernel boot, by simp, ?_, ?_, ?_⟩
    · rw [StoredName, kernelRecord, dirRec_name]
      exact List.prefix_append ..
    · rw [kernelRecord, dirRec_lba]
      exact leVal_le_of_lt (n := 4) hstart
    · rw [kernelRecord, dirRec_size]
      exact leVal_le_of_lt (n := 4) hlen
  bootImage := iso_boot (hroom.trans (length_le_padded boot)) hroom
  length := by
    rw [iso_length, (bootimg_holds (hroom.trans (length_le_padded boot))).length, totalSectors_eq]
    omega

/-- Where the marker is. -/
theorem find_marker {pre rest : List UInt8} (hboot : boot = pre ++ (MARKER ++ rest))
    (h8 : 8 ≤ rest.length) :
    ∃ midx, find MARKER boot = some midx ∧ midx + MARKER.length + 8 ≤ boot.length := by
  obtain ⟨midx, hm, hle⟩ := find_le pre MARKER rest
  refine ⟨midx, by rw [hboot]; exact hm, ?_⟩
  rw [hboot, List.length_append, List.length_append]
  omega

/-- No image is written unless the padded boot image fills whole sectors of 2048 bytes. If it does,
and the sectors can be numbered, the image is as it should be, but for the name of the kernel: in
the root directory the length byte of every name is 1. -/
theorem buildOk_iff {pre rest : List UInt8} (hlen : kernel.length < 2 ^ 32)
    (hboot : boot = pre ++ (MARKER ++ rest)) (h8 : 8 ≤ rest.length) :
    (BuildOk StoredName kernel boot → bootVsec boot % 4 = 0) ∧
      (lbaRoot kernel boot < 2 ^ 32 → (bootVsec boot % 4 = 0 → BuildOk StoredName kernel boot) ∧
        ¬ BuildOk IdentifierName kernel boot) := by
  obtain ⟨midx, hm, hroom⟩ := find_marker hboot h8
  have hle := hroom.trans (length_le_padded boot)
  have hbuild : build kernel boot = _ := build_eq hm hle
  refine ⟨?_, fun hlba => ⟨fun h4 => ?_, ?_⟩⟩
  · rintro ⟨image, -, hi, -, -⟩
    by_contra h4
    rw [hbuild, if_neg h4] at hi
    cases hi
  · rw [if_pos h4] at hbuild
    exact ⟨_, midx, hbuild, hm, imageOk_iso hlen hroom h4 hlba⟩
  · rintro ⟨image, midx', hi, -, H⟩
    by_cases h4 : bootVsec boot % 4 = 0
    · rw [hbuild, if_pos h4] at hi
      obtain rfl := Option.some.inj hi
      obtain ⟨r, hr, hname, -⟩ := H.file
      rw [iso_rootDir hle h4 hlba] at hr
      exact not_identifierName hr hname
    · rw [hbuild, if_neg h4] at hi
      cases hi

/-- A boot image with nothing but room for the patch behind the marker. -/
def sampleBoot (room : Nat) : List UInt8 := MARKER ++ zeros room

theorem sampleBoot_length (room : Nat) : (sampleBoot room).length = 9 + room := by
  rw [sampleBoot, List.length_append, zeros_length]
  rfl

/-- Five sectors of 512 bytes. -/
theorem sampleBoot_not_ok : ¬ BuildOk StoredName [] (sampleBoot 2040) := by
  rintro ⟨image, -, hi, -, -⟩
  have hboot : sampleBoot 2040 = [] ++ (MARKER ++ zeros 2040) := rfl
  obtain ⟨midx, hm, hle⟩ := find_marker hboot (by rw [zeros_length]; decide)
  rw [build_eq hm (hle.trans (length_le_padded _)), bootVsec, sampleBoot_length] at hi
  cases hi

theorem sampleBoot_ok : BuildOk StoredName [0xCC] (sampleBoot 8) := by
  have hvsec : bootVsec (sampleBoot 8) = 4 := by rw [bootVsec, sampleBoot_length]; rfl
  have hlba : lbaRoot [0xCC] (sampleBoot 8) < 2 ^ 32 := by
    rw [lbaRoot, lbaKernel, hvsec]
    decide
  have hboot : sampleBoot 8 = [] ++ (MARKER ++ zeros 8) := rfl
  exact ((buildOk_iff (by decide) hboot (by decide)).2 hlba).1 (by rw [hvsec])

end Mkiso

end BojanOS
