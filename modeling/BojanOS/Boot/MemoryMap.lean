import BojanOS.Lib.Bytes
import BojanOS.Lib.Loop
import Mathlib.Data.Nat.Bitwise

/-!
# The boot memory maps (`multiboot.c`)

`boot_parse` reads the largest address of usable memory out of one of three tables. The two
Multiboot layouts are those of their specifications: `mmap_length` and `mmap_addr` are the words at
44 and 48 of the first, where `parse_mb1` reads 88 and 92, and the second begins with its total size
and a reserved zero, which `parse_mb2` takes for the size.
-/

namespace BojanOS

open Bytes

/-- The bytes of the memory. -/
abbrev Mem := Nat → UInt8

def BOOT_MAGIC_BONJ : Nat := 0x4A4E4F42
def BOOT_MAGIC_MB1 : Nat := 0x2BADB002
def BOOT_MAGIC_MB2 : Nat := 0x36D76289

/-- `total_mem_kb` before `boot_parse`. -/
def INITIAL_MEM_KB : Nat := 32768

/-! ## The parser -/

/-- `if (type == 1 && base < 0x100000000ULL)`: the larger of `best` and the top of the region. -/
def considerTop (best base len type : Nat) : Nat :=
  if type = 1 ∧ base < 0x100000000 then
    let top := (base + len) % 2 ^ 64
    if best < top then top else best
  else best

/-- `if (best > 16 * 1024 * 1024) total_mem_kb = (uint32_t)(best / 1024);` -/
def setTotal (totalMemKb best : Nat) : Nat :=
  if 16 * 1024 * 1024 < best then best / 1024 % 2 ^ 32 else totalMemKb

/-- The loop of `parse_e820_cd`, with the number of rounds that are left. -/
def cdLoop (m : Mem) : Nat → Nat → Nat → Nat
  | 0, _, best => best
  | n + 1, p, best =>
    cdLoop m n (p + 24) (considerTop best (peek m p 8) (peek m (p + 8) 8) (peek m (p + 16) 4))

def parseE820Cd (m : Mem) (totalMemKb : Nat) : Nat :=
  let count := peek m 0x5000 2
  setTotal totalMemKb (cdLoop m (min count 64) 0x5008 0)

/-- The loop over `off` in `parse_mb1`; the state is `off` and `best`. -/
def mb1Step (m : Mem) (mmapLen mmapAddr : Nat) : Nat × Nat → Option (Nat × Nat ⊕ Nat)
  | (off, best) =>
    if off < mmapLen then
      let e := (mmapAddr + off) % 2 ^ 32
      let esize := peek m e 4
      let best := considerTop best (peek m (e + 12) 8) (peek m (e + 20) 8) (peek m (e + 28) 4)
      some (.inl ((off + esize + 4) % 2 ^ 32, best))
    else some (.inr best)

/-- `off` is a `uint32_t`: a loop that does not end in so many rounds does not end. -/
def OFF_ROUNDS : Nat := 2 ^ 32 + 1

def parseMb1 (m : Mem) (bootInfo totalMemKb : Nat) : Option Nat :=
  let flags := peek m bootInfo 4
  let totalMemKb :=
    if flags.testBit 0 then (peek m (bootInfo + 4) 4 + peek m (bootInfo + 8) 4) % 2 ^ 32
    else totalMemKb
  if flags.testBit 6 then
    let mmapLen := peek m (bootInfo + 88) 4
    let mmapAddr := peek m (bootInfo + 92) 4
    (Loop.run (mb1Step m mmapLen mmapAddr) OFF_ROUNDS (0, 0)).map (setTotal totalMemKb)
  else some totalMemKb

/-- The loop over the entries of a memory-map tag. -/
def mb2EntryStep (m : Mem) (e esize elen : Nat) : Nat × Nat → Option (Nat × Nat ⊕ Nat)
  | (off, best) =>
    if (off + esize) % 2 ^ 32 ≤ elen then
      let best := considerTop best (peek m (e + off) 8) (peek m (e + off + 8) 8)
        (peek m (e + off + 16) 4)
      some (.inl ((off + esize) % 2 ^ 32, best))
    else some (.inr best)

/-- The loop over the tags; the state is `p` and `total_mem_kb`. -/
def mb2Step (m : Mem) (fin : Nat) : Nat × Nat → Option (Nat × Nat ⊕ Nat)
  | (p, totalMemKb) =>
    if p < fin then
      let type := peek m p 4
      let size := peek m (p + 4) 4
      if size = 0 then some (.inr totalMemKb)
      else if type = 6 then
        let esize := peek m (p + 8) 4
        let elen := peek m (p + 12) 4
        (Loop.run (mb2EntryStep m (p + 16) esize elen) OFF_ROUNDS (0, 0)).map fun best =>
          .inl (p + size, setTotal totalMemKb best)
      else some (.inl (p + size, totalMemKb))
    else some (.inr totalMemKb)

def parseMb2 (m : Mem) (bootInfo totalMemKb : Nat) : Option Nat :=
  let total := peek m (bootInfo + 4) 4
  let fin := bootInfo + total
  Loop.exec (mb2Step m fin) (fun st => fin - st.1) (bootInfo + 8, totalMemKb)

/-- `total_mem_kb` after `boot_parse`; `none` when a loop does not end. -/
def bootParse (m : Mem) (bootMagic bootInfo : Nat) : Option Nat :=
  if bootMagic = BOOT_MAGIC_BONJ then some (parseE820Cd m INITIAL_MEM_KB)
  else if bootMagic = BOOT_MAGIC_MB1 then parseMb1 m bootInfo INITIAL_MEM_KB
  else if bootMagic = BOOT_MAGIC_MB2 then parseMb2 m bootInfo INITIAL_MEM_KB
  else some INITIAL_MEM_KB

/-! ## The tables -/

structure Region where
  base : Nat
  len : Nat
  type : Nat
  type_lt : type < 2 ^ 32
  fits : base + len < 2 ^ 64

/-- The top of a usable region that begins below 4 GiB. -/
def Region.usableTop (r : Region) : Nat :=
  if r.type = 1 ∧ r.base < 2 ^ 32 then r.base + r.len else 0

/-- The largest of these tops. -/
def maxTop (regions : List Region) : Nat := (regions.map Region.usableTop).foldr max 0

/-- Base, length and type at an address. -/
structure EntryAt (m : Mem) (a : Nat) (r : Region) : Prop where
  base : peek m a 8 = r.base
  len : peek m (a + 8) 8 = r.len
  type : peek m (a + 16) 4 = r.type

/-- The table of the CD loader. -/
structure PresentsCd (m : Mem) (regions : List Region) : Prop where
  count : peek m 0x5000 2 = regions.length
  entries : ∀ i r, regions[i]? = some r → EntryAt m (0x5008 + 24 * i) r

/-- The information structure of Multiboot 1 with a memory map. -/
structure PresentsMb1 (m : Mem) (info : Nat) (regions : List Region) : Prop where
  flags : (peek m info 4).testBit 6 = true
  length : peek m (info + 44) 4 = 24 * regions.length
  entries : ∀ i r, regions[i]? = some r →
    peek m (peek m (info + 48) 4 + 24 * i) 4 = 20 ∧
      EntryAt m (peek m (info + 48) 4 + 24 * i + 4) r

/-- The tags of Multiboot 2 from `p` to `fin`: others, the memory map, and the end tag. -/
inductive Mb2Tags (m : Mem) (regions : List Region) (fin : Nat) : Nat → Prop
  | other {p : Nat} (htype : peek m p 4 ≠ 6 ∧ peek m p 4 ≠ 0) (hsize : 8 ≤ peek m (p + 4) 4)
    (h : Mb2Tags m regions fin (p + (peek m (p + 4) 4 + 7) / 8 * 8)) : Mb2Tags m regions fin p
  | memoryMap {p : Nat} (htype : peek m p 4 = 6) (hsize : peek m (p + 4) 4 = 16 + 24 * regions.length)
    (hesize : peek m (p + 8) 4 = 24) (hversion : peek m (p + 12) 4 = 0)
    (hentries : ∀ i r, regions[i]? = some r → EntryAt m (p + 16 + 24 * i) r)
    (hend : peek m (p + (16 + 24 * regions.length)) 4 = 0 ∧
      peek m (p + (16 + 24 * regions.length) + 4) 4 = 8)
    (hfin : p + (16 + 24 * regions.length) + 8 = fin) : Mb2Tags m regions fin p

structure PresentsMb2 (m : Mem) (info : Nat) (regions : List Region) : Prop where
  aligned : info % 8 = 0
  reserved : peek m (info + 4) 4 = 0
  tags : Mb2Tags m regions (info + peek m info 4) (info + 8)

/-- The three ways to boot. -/
inductive Way where
  | cd
  | mb1
  | mb2
  deriving DecidableEq

namespace Way

def magic : Way → Nat
  | cd => BOOT_MAGIC_BONJ
  | mb1 => BOOT_MAGIC_MB1
  | mb2 => BOOT_MAGIC_MB2

def Presents : Way → Mem → Nat → List Region → Prop
  | cd, m, _ => PresentsCd m
  | mb1, m, info => PresentsMb1 m info
  | mb2, m, info => PresentsMb2 m info

end Way

/-- Every memory in which the list is presented in this way leads to its largest top. -/
def MapRead (way : Way) (regions : List Region) : Prop :=
  ∀ m info, info < 2 ^ 32 → way.Presents m info regions →
    bootParse m way.magic info = some (maxTop regions / 1024)

variable {m : Mem} {info : Nat} {regions : List Region}

/-! ## The table of the CD loader -/

theorem considerTop_region (best : Nat) (r : Region) :
    considerTop best r.base r.len r.type = max best r.usableTop := by
  have hlimit : 0x100000000 = 2 ^ 32 := rfl
  rw [considerTop, Region.usableTop, hlimit]
  by_cases hu : r.type = 1 ∧ r.base < 2 ^ 32
  · rw [if_pos hu, if_pos hu, Nat.mod_eq_of_lt r.fits]
    simp only
    split <;> omega
  · rw [if_neg hu, if_neg hu, Nat.max_zero]

theorem cdLoop_spec {p best : Nat}
    (h : ∀ i r, regions[i]? = some r → EntryAt m (p + 24 * i) r) :
    cdLoop m regions.length p best = max best (maxTop regions) := by
  induction regions generalizing p best with
  | nil => exact (Nat.max_zero best).symm
  | cons r regions ih =>
    have h0 : EntryAt m p r := h 0 r rfl
    have hrest : ∀ i r', regions[i]? = some r' → EntryAt m (p + 24 + 24 * i) r' := by
      intro i r' hi
      have := h (i + 1) r' hi
      rwa [Nat.mul_succ, Nat.add_comm (24 * i), ← Nat.add_assoc] at this
    have hmax : maxTop (r :: regions) = max r.usableTop (maxTop regions) := rfl
    rw [List.length_cons, cdLoop, h0.base, h0.len, h0.type, considerTop_region, ih hrest, hmax,
      Nat.max_assoc]

theorem setTotal_max {total : Nat} (hlow : 16 * 1024 * 1024 < maxTop regions)
    (hhigh : maxTop regions < 2 ^ 42) : setTotal total (maxTop regions) = maxTop regions / 1024 := by
  rw [setTotal, if_pos hlow, Nat.mod_eq_of_lt]
  omega

/-- The CD loader's table is read right. -/
theorem mapRead_cd (hlen : regions.length ≤ 64) (hlow : 16 * 1024 * 1024 < maxTop regions)
    (hhigh : maxTop regions < 2 ^ 42) : MapRead .cd regions := by
  intro m info _ H
  have hcd : PresentsCd m regions := H
  have hmagic : bootParse m Way.cd.magic info = some (parseE820Cd m INITIAL_MEM_KB) := if_pos rfl
  rw [hmagic, parseE820Cd, hcd.count, Nat.min_eq_left hlen, cdLoop_spec hcd.entries, Nat.zero_max,
    setTotal_max hlow hhigh]

/-! ## Multiboot 2 -/

/-- The size of the structure is taken for zero. -/
theorem bootParse_mb2 (h : PresentsMb2 m info regions) :
    bootParse m Way.mb2.magic info = some INITIAL_MEM_KB := by
  have hmagic : bootParse m Way.mb2.magic info = parseMb2 m info INITIAL_MEM_KB := by
    rw [bootParse, if_neg (by decide), if_neg (by decide), if_pos (by decide)]
  have hstep : mb2Step m (info + 0) (info + 8, INITIAL_MEM_KB) = some (.inr INITIAL_MEM_KB) := by
    rw [mb2Step, if_neg (by omega)]
  rw [hmagic, parseMb2, h.reserved]
  exact Loop.exec_done hstep

/-! ## Multiboot 1 -/

/-- Where there are no words at 88 and 92, there is no map. -/
theorem bootParse_mb1 (h : PresentsMb1 m info regions) (h88 : peek m (info + 88) 4 = 0) :
    bootParse m Way.mb1.magic info = some
      (if (peek m info 4).testBit 0 then (peek m (info + 4) 4 + peek m (info + 8) 4) % 2 ^ 32
        else INITIAL_MEM_KB) := by
  have hmagic : bootParse m Way.mb1.magic info = parseMb1 m info INITIAL_MEM_KB := by
    rw [bootParse, if_neg (by decide), if_pos (by decide)]
  have hrun : ∀ addr, Loop.run (mb1Step m 0 addr) OFF_ROUNDS (0, 0) = some 0 := fun addr => rfl
  rw [hmagic, parseMb1, if_pos h.flags, h88]
  simp only
  rw [hrun]
  rfl

/-! ## Memories that present a list -/

theorem width_regions {f : Region → List (Nat × Nat)} (hf : ∀ r, width (f r) = 24) :
    width (regions.flatMap f) = 24 * regions.length := by
  induction regions with
  | nil => rfl
  | cons r rs ih =>
    rw [List.flatMap_cons, width_append, hf, ih, List.length_cons]
    omega

/-- A field of the record of one region, behind the records of the regions before it. -/
theorem peek_region {a b k n v i : Nat} {hdr tail pre post : List (Nat × Nat)} {r : Region}
    {f : Region → List (Nat × Nat)} (hf : ∀ r, width (f r) = 24) (hb : width hdr = b)
    (hi : regions[i]? = some r) (hr : f r = pre ++ (n, v) :: post) (hk : width pre = k)
    (hv : v < 256 ^ n) :
    peek (place a (encode (hdr ++ (regions.flatMap f ++ tail)))) (a + b + 24 * i + k) n = v := by
  obtain ⟨hlt, rfl⟩ := List.getElem?_eq_some_iff.mp hi
  have hsplit : regions.flatMap f = (regions.take i).flatMap f ++
      (pre ++ (n, v) :: (post ++ (regions.drop (i + 1)).flatMap f)) := by
    have hcons := List.drop_eq_getElem_cons hlt
    conv_lhs =>
      rw [← List.take_append_drop i regions, hcons, List.flatMap_append, List.flatMap_cons, hr]
    simp only [List.append_assoc, List.cons_append]
  have hlist : hdr ++ (regions.flatMap f ++ tail) = (hdr ++ ((regions.take i).flatMap f ++ pre)) ++
      (n, v) :: (post ++ ((regions.drop (i + 1)).flatMap f ++ tail)) := by
    rw [hsplit]
    simp only [List.append_assoc, List.cons_append]
  have hw : width (hdr ++ ((regions.take i).flatMap f ++ pre)) = b + 24 * i + k := by
    rw [width_append, width_append, width_regions hf, hb, hk, List.length_take, Nat.min_eq_left hlt.le]
    omega
  have haddr : a + b + 24 * i + k = a + (b + 24 * i + k) := by omega
  rw [hlist, haddr]
  exact peek_field hw hv

def INFO : Nat := 0x10000

def mb1Entry (r : Region) : List (Nat × Nat) := [(4, 20), (8, r.base), (8, r.len), (4, r.type)]

def mb1Header (n : Nat) : List (Nat × Nat) :=
  [(4, 0x41), (4, 0), (4, 0), (32, 0), (4, 24 * n), (4, INFO + 96), (36, 0), (4, 0), (4, 0)]

/-- Memory sizes that are zero, a memory map, and nothing else. -/
def mb1Memory (regions : List Region) : Mem :=
  place INFO (encode (mb1Header regions.length ++ (regions.flatMap mb1Entry ++ [])))

def mb2Entry (r : Region) : List (Nat × Nat) := [(8, r.base), (8, r.len), (4, r.type), (4, 0)]

def mb2Header (n : Nat) : List (Nat × Nat) :=
  [(4, 32 + 24 * n), (4, 0), (4, 6), (4, 16 + 24 * n), (4, 24), (4, 0)]

/-- A memory map, and the end tag. -/
def mb2Memory (regions : List Region) : Mem :=
  place INFO (encode (mb2Header regions.length ++ (regions.flatMap mb2Entry ++ [(4, 0), (4, 8)])))

theorem mb1Memory_field (i : Nat) {n v k : Nat} {post : List (Nat × Nat)}
    (h : (mb1Header regions.length).drop i = (n, v) :: post)
    (hk : width ((mb1Header regions.length).take i) = k) (hv : v < 256 ^ n) :
    peek (mb1Memory regions) (INFO + k) n = v := by
  have hsplit : mb1Header regions.length = (mb1Header regions.length).take i ++ (n, v) :: post := by
    rw [← h, List.take_append_drop]
  rw [mb1Memory]
  conv_lhs => rw [hsplit, List.append_assoc, List.cons_append]
  exact peek_field hk hv

theorem presents_mb1Memory (hlen : regions.length ≤ 64) :
    PresentsMb1 (mb1Memory regions) INFO regions where
  flags := by
    have : peek (mb1Memory regions) (INFO + 0) 4 = 0x41 := mb1Memory_field 0 rfl rfl (by decide)
    rw [Nat.add_zero] at this
    rw [this]
    decide
  length := mb1Memory_field 4 rfl rfl (by omega)
  entries := by
    have haddr : peek (mb1Memory regions) (INFO + 48) 4 = INFO + 96 :=
      mb1Memory_field 5 rfl rfl (by decide)
    intro i r hi
    have hfield : ∀ (pre : List (Nat × Nat)) {post : List (Nat × Nat)} {n v a : Nat},
        mb1Entry r = pre ++ (n, v) :: post → a = INFO + 96 + 24 * i + width pre → v < 256 ^ n →
        peek (mb1Memory regions) a n = v := by
      intro pre post n v a hr ha hv
      rw [ha]
      exact peek_region (fun _ => rfl) rfl hi hr rfl hv
    have hbase : r.base < 256 ^ 8 := Nat.lt_of_le_of_lt (Nat.le_add_right _ _) r.fits
    have hlen : r.len < 256 ^ 8 := Nat.lt_of_le_of_lt (Nat.le_add_left _ _) r.fits
    rw [haddr]
    exact ⟨hfield [] rfl rfl (by decide), hfield [(4, 20)] rfl rfl hbase,
      hfield [(4, 20), (8, r.base)] rfl rfl hlen,
      hfield [(4, 20), (8, r.base), (8, r.len)] rfl rfl r.type_lt⟩

theorem mb2Memory_field (i : Nat) {n v k : Nat} {post : List (Nat × Nat)}
    (h : (mb2Header regions.length).drop i = (n, v) :: post)
    (hk : width ((mb2Header regions.length).take i) = k) (hv : v < 256 ^ n) :
    peek (mb2Memory regions) (INFO + k) n = v := by
  have hsplit : mb2Header regions.length = (mb2Header regions.length).take i ++ (n, v) :: post := by
    rw [← h, List.take_append_drop]
  rw [mb2Memory]
  conv_lhs => rw [hsplit, List.append_assoc, List.cons_append]
  exact peek_field hk hv

theorem presents_mb2Memory (hlen : regions.length ≤ 64) :
    PresentsMb2 (mb2Memory regions) INFO regions where
  aligned := by decide
  reserved := mb2Memory_field 1 rfl rfl (by decide)
  tags := by
    have htotal : peek (mb2Memory regions) (INFO + 0) 4 = 32 + 24 * regions.length :=
      mb2Memory_field 0 rfl rfl (by omega)
    have hsize : peek (mb2Memory regions) (INFO + 12) 4 = 16 + 24 * regions.length :=
      mb2Memory_field 3 rfl rfl (by omega)
    have hend : ∀ (pre : List (Nat × Nat)) {post : List (Nat × Nat)} {n v a : Nat},
        [(4, 0), (4, 8)] = pre ++ (n, v) :: post →
        a = INFO + (24 + 24 * regions.length + width pre) → v < 256 ^ n →
        peek (mb2Memory regions) a n = v := by
      intro pre post n v a hr ha hv
      have hw : width (mb2Header regions.length ++ (regions.flatMap mb2Entry ++ pre)) =
          24 + 24 * regions.length + width pre := by
        rw [width_append, width_append, width_regions fun _ => rfl, ← Nat.add_assoc]
        rfl
      have happ : mb2Header regions.length ++ (regions.flatMap mb2Entry ++ [(4, 0), (4, 8)]) =
          (mb2Header regions.length ++ (regions.flatMap mb2Entry ++ pre)) ++ (n, v) :: post := by
        rw [hr]
        simp only [List.append_assoc]
      rw [ha, mb2Memory, happ]
      exact peek_field hw hv
    rw [Nat.add_zero] at htotal
    rw [htotal]
    have htype : peek (mb2Memory regions) (INFO + 8) 4 = 6 := mb2Memory_field 2 rfl rfl (by decide)
    have hstride : peek (mb2Memory regions) (INFO + 16) 4 = 24 :=
      mb2Memory_field 4 rfl rfl (by decide)
    have hversion : peek (mb2Memory regions) (INFO + 20) 4 = 0 :=
      mb2Memory_field 5 rfl rfl (by decide)
    apply Mb2Tags.memoryMap htype
    case hsize => exact hsize
    case hesize => exact hstride
    case hversion => exact hversion
    case hfin => omega
    case hentries =>
      intro i r hi
      have hfield : ∀ (pre : List (Nat × Nat)) {post : List (Nat × Nat)} {n v a : Nat},
          mb2Entry r = pre ++ (n, v) :: post → a = INFO + 24 + 24 * i + width pre → v < 256 ^ n →
          peek (mb2Memory regions) a n = v := by
        intro pre post n v a hr ha hv
        rw [ha]
        exact peek_region (fun _ => rfl) rfl hi hr rfl hv
      have hbase : r.base < 256 ^ 8 := Nat.lt_of_le_of_lt (Nat.le_add_right _ _) r.fits
      have hlen : r.len < 256 ^ 8 := Nat.lt_of_le_of_lt (Nat.le_add_left _ _) r.fits
      exact ⟨hfield [] rfl rfl hbase, hfield [(8, r.base)] rfl rfl hlen,
        hfield [(8, r.base), (8, r.len)] rfl rfl r.type_lt⟩
    case hend =>
      have hnone : width [] = 0 := rfl
      have hfour : width [(4, 0)] = 4 := rfl
      constructor
      · apply hend [] rfl
        · rw [hnone]
          omega
        · decide
      · apply hend [(4, 0)] rfl
        · rw [hfour]
          omega
        · decide

/-! ## The three maps -/

theorem not_mapRead_mb1 (hlen : regions.length ≤ 64) (hlow : 16 * 1024 * 1024 < maxTop regions) :
    ¬ MapRead .mb1 regions := by
  intro H
  have h := H (mb1Memory regions) INFO (by decide) (presents_mb1Memory hlen)
  have hflags : peek (mb1Memory regions) (INFO + 0) 4 = 0x41 := mb1Memory_field 0 rfl rfl (by decide)
  have hlower : peek (mb1Memory regions) (INFO + 4) 4 = 0 := mb1Memory_field 1 rfl rfl (by decide)
  have hupper : peek (mb1Memory regions) (INFO + 8) 4 = 0 := mb1Memory_field 2 rfl rfl (by decide)
  rw [Nat.add_zero] at hflags
  rw [bootParse_mb1 (presents_mb1Memory hlen) (mb1Memory_field 7 rfl rfl (by decide)), hflags,
    hlower, hupper] at h
  have hzero : 0 = maxTop regions / 1024 := Option.some.inj h
  omega

theorem mapRead_mb2_iff (hlen : regions.length ≤ 64) :
    MapRead .mb2 regions ↔ maxTop regions / 1024 = INITIAL_MEM_KB := by
  constructor
  · intro H
    have h := H (mb2Memory regions) INFO (by decide) (presents_mb2Memory hlen)
    rw [bootParse_mb2 (presents_mb2Memory hlen)] at h
    exact (Option.some.inj h).symm
  · intro he m info _ hm
    have hread : bootParse m Way.mb2.magic info = some INITIAL_MEM_KB := bootParse_mb2 hm
    rw [hread, he]

/-- The table of the CD loader is read right. With Multiboot 1 no list is, and with Multiboot 2 only
one whose top is the size that is assumed before. -/
theorem mapRead_iff (way : Way) (hlen : regions.length ≤ 64)
    (hlow : 16 * 1024 * 1024 < maxTop regions) (hhigh : maxTop regions < 2 ^ 42) :
    MapRead way regions ↔ way = .cd ∨ way = .mb2 ∧ maxTop regions / 1024 = INITIAL_MEM_KB := by
  cases way with
  | cd => exact iff_of_true (mapRead_cd hlen hlow hhigh) (.inl rfl)
  | mb1 => exact iff_of_false (not_mapRead_mb1 hlen hlow) (by simp)
  | mb2 => simpa using mapRead_mb2_iff hlen

/-- 64 MiB of memory. -/
def sampleRegions : List Region := [⟨0, 0x4000000, 1, by decide, by decide⟩]

theorem sampleRegions_not_mapRead :
    ¬ MapRead .mb1 sampleRegions ∧ ¬ MapRead .mb2 sampleRegions :=
  ⟨not_mapRead_mb1 (by decide) (by decide),
    fun H => absurd ((mapRead_mb2_iff (by decide)).mp H) (by decide)⟩

theorem sampleRegions_mapRead : MapRead .cd sampleRegions :=
  (mapRead_iff .cd (by decide) (by decide) (by decide)).mpr (.inl rfl)

end BojanOS
