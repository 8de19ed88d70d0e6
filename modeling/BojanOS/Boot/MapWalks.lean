import BojanOS.Boot.MemoryMap

/-!
# The walks over the boot information end (`multiboot.c`, `kmain`)

The loops of the three parsers, and that of `kmain` which looks for the command line, go from entry to
entry by lengths that the boot loader wrote. `WalksEnd` says that they move on with every round, and
`walksEnd_iff` which contents let them.
-/

namespace BojanOS

open Bytes

variable {m : Mem}

/-! ## The loops -/

/-- The loop of `parse_e820_cd` over `i`, `p` and `best`. -/
def cdStep (m : Mem) (count : Nat) : Nat × Nat × Nat → Option (Nat × Nat × Nat ⊕ Nat)
  | (i, p, best) =>
    if i < count ∧ i < 64 then
      some (.inl (i + 1, p + 24,
        considerTop best (peek m p 8) (peek m (p + 8) 8) (peek m (p + 16) 4)))
    else some (.inr best)

/-- It is the loop of `parseE820Cd`. -/
theorem run_cdStep {count k : Nat} : ∀ {i p best : Nat}, i + k = min count 64 →
    Loop.run (cdStep m count) (k + 1) (i, p, best) = some (cdLoop m k p best) := by
  induction k with
  | zero =>
    intro i p best hi
    have hstep : cdStep m count (i, p, best) = some (.inr best) := by
      rw [cdStep, if_neg (by omega)]
    rw [Loop.run, hstep, cdLoop]
  | succ k ih =>
    intro i p best hi
    rw [Loop.run, cdStep, if_pos (by omega), cdLoop]
    exact ih (by omega)

/-- The loop of `kmain` over the tags, for `p` and `cmdline`. -/
def cmdlineStep (m : Mem) (fin : Nat) : Nat × Option Nat → Option (Nat × Option Nat ⊕ Option Nat)
  | (p, cmdline) =>
    if p < fin then
      let type := peek m p 4
      let size := peek m (p + 4) 4
      if size = 0 then some (.inr cmdline)
      else some (.inl (p + size, if type = 1 then some (p + 8) else cmdline))
    else some (.inr cmdline)

/-- `cmdline` of `kmain`; `none` outside is a loop that does not end. -/
def kmainCmdline (m : Mem) (bootMagic bootInfo : Nat) : Option (Option Nat) :=
  if bootMagic = BOOT_MAGIC_MB1 then
    some (if (peek m bootInfo 4).testBit 2 then some (peek m (bootInfo + 32) 4) else none)
  else if bootMagic = BOOT_MAGIC_MB2 then
    let fin := bootInfo + peek m (bootInfo + 4) 4
    Loop.exec (cmdlineStep m fin) (fun st => fin - st.1) (bootInfo + 8, none)
  else some none

/-! ## What is to be shown -/

/-- The loop comes to its end, and every round moves the place on, below `top`, or leaves it. -/
structure LoopEnds {σ ρ : Type} (step : σ → Option (σ ⊕ ρ)) (off next : σ → Nat) (top : Nat) (s : σ) :
    Prop where
  terminates : ∃ n r, Loop.run step n s = some r
  advances : Loop.Advances step off next top s

theorem LoopEnds.of_advances {σ ρ : Type} {step : σ → Option (σ ⊕ ρ)} {off next : σ → Nat} {top : Nat}
    {s : σ} (A : Loop.Advances step off next top s) : LoopEnds step off next top s :=
  ⟨⟨_, A.run (Nat.lt_succ_self _)⟩, A⟩

/-- The size of the entry at `off` in the map of `parse_mb1`. -/
def mb1Size (m : Mem) (mmapAddr off : Nat) : Nat := peek m ((mmapAddr + off) % 2 ^ 32) 4

def CdEnds (m : Mem) : Prop :=
  LoopEnds (cdStep m (peek m 0x5000 2)) (fun s => s.1) (fun s => s.1 + 1) (2 ^ 31) (0, 0x5008, 0)

def Mb1Ends (m : Mem) (bootInfo : Nat) : Prop :=
  let mmapAddr := peek m (bootInfo + 92) 4
  (peek m bootInfo 4).testBit 6 = true →
    LoopEnds (mb1Step m (peek m (bootInfo + 88) 4) mmapAddr) (fun s => s.1)
      (fun s => s.1 + mb1Size m mmapAddr s.1 + 4) (2 ^ 32) (0, 0)

/-- The loop over the entries of the tag at `p`. -/
def Mb2EntriesEnd (m : Mem) (p : Nat) : Prop :=
  let esize := peek m (p + 8) 4
  LoopEnds (mb2EntryStep m (p + 16) esize (peek m (p + 12) 4)) (fun s => s.1) (fun s => s.1 + esize)
    (2 ^ 32) (0, 0)

/-- The loop over the tags, and that over the entries wherever it is entered. -/
structure Mb2Ends (m : Mem) (bootInfo totalMemKb : Nat) : Prop where
  tags : LoopEnds (mb2Step m (bootInfo + peek m (bootInfo + 4) 4)) (fun s => s.1)
    (fun s => s.1 + peek m (s.1 + 4) 4) (2 ^ 64) (bootInfo + 8, totalMemKb)
  entries : ∀ p total, Loop.Reaches (mb2Step m (bootInfo + peek m (bootInfo + 4) 4))
    (bootInfo + 8, totalMemKb) (p, total) → p < bootInfo + peek m (bootInfo + 4) 4 →
    peek m (p + 4) 4 ≠ 0 → peek m p 4 = 6 → Mb2EntriesEnd m p

def CmdlineEnds (m : Mem) (bootInfo : Nat) : Prop :=
  LoopEnds (cmdlineStep m (bootInfo + peek m (bootInfo + 4) 4)) (fun s => s.1)
    (fun s => s.1 + peek m (s.1 + 4) 4) (2 ^ 64) (bootInfo + 8, none)

/-- The loops that run for the two arguments of `kmain`, which keeps 32 bits of each. -/
structure WalksEnd (m : Mem) (magic info : Nat) : Prop where
  cd : magic % 2 ^ 32 = BOOT_MAGIC_BONJ → CdEnds m
  mb1 : magic % 2 ^ 32 = BOOT_MAGIC_MB1 → Mb1Ends m (info % 2 ^ 32)
  mb2 : magic % 2 ^ 32 = BOOT_MAGIC_MB2 → Mb2Ends m (info % 2 ^ 32) INITIAL_MEM_KB
  cmdline : magic % 2 ^ 32 = BOOT_MAGIC_MB2 → CmdlineEnds m (info % 2 ^ 32)

/-! ## Which contents let them -/

/-- The offsets of the entries, one behind the other, in the map of `parse_mb1`. -/
inductive Mb1Offset (m : Mem) (mmapLen mmapAddr : Nat) : Nat → Prop
  | first : Mb1Offset m mmapLen mmapAddr 0
  | next {off : Nat} : Mb1Offset m mmapLen mmapAddr off → off < mmapLen →
    Mb1Offset m mmapLen mmapAddr (off + mb1Size m mmapAddr off + 4)

/-- No entry in the map reaches to the end of the 32 bits. -/
def Mb1Fits (m : Mem) (bootInfo : Nat) : Prop :=
  let mmapLen := peek m (bootInfo + 88) 4
  let mmapAddr := peek m (bootInfo + 92) 4
  (peek m bootInfo 4).testBit 6 = true → ∀ off, Mb1Offset m mmapLen mmapAddr off →
    off < mmapLen → off + mb1Size m mmapAddr off + 4 < 2 ^ 32

/-- The places of the tags up to the first of size 0. -/
inductive Mb2Tag (m : Mem) (fin start : Nat) : Nat → Prop
  | first : Mb2Tag m fin start start
  | next {p : Nat} : Mb2Tag m fin start p → p < fin → peek m (p + 4) 4 ≠ 0 →
    Mb2Tag m fin start (p + peek m (p + 4) 4)

/-- Entries of this size are more than none, and the first one that does not fit into `elen` does not
reach to the end of the 32 bits. -/
def EntriesFit (esize elen : Nat) : Prop := esize ≠ 0 ∧ (elen / esize + 1) * esize < 2 ^ 32

def Mb2Fits (m : Mem) (bootInfo : Nat) : Prop :=
  let fin := bootInfo + peek m (bootInfo + 4) 4
  ∀ p, Mb2Tag m fin (bootInfo + 8) p → p < fin → peek m (p + 4) 4 ≠ 0 → peek m p 4 = 6 →
    EntriesFit (peek m (p + 8) 4) (peek m (p + 12) 4)

/-! ## The table of the CD loader, and the command line -/

theorem cdEnds (m : Mem) : CdEnds m := by
  apply LoopEnds.of_advances
  refine (Loop.Advances.of_inv (I := fun _ => True) trivial ?_).1
  rintro ⟨i, p, best⟩ -
  rw [cdStep]
  split
  · rename_i hi
    exact Or.inr ⟨_, rfl, trivial, rfl, Nat.lt_succ_self i, by omega⟩
  · exact Or.inl ⟨best, rfl⟩

/-- A sum with a size that is not 0 is beyond the place and below the end of the 64 bits. -/
theorem tag_next {info p : Nat} (hp : p < info % 2 ^ 32 + peek m (info % 2 ^ 32 + 4) 4)
    (hsize : peek m (p + 4) 4 ≠ 0) :
    p < p + peek m (p + 4) 4 ∧ p + peek m (p + 4) 4 < 2 ^ 64 := by
  have htotal := peek_lt m (info % 2 ^ 32 + 4) 4
  have hlt := peek_lt m (p + 4) 4
  omega

theorem cmdlineEnds (m : Mem) (info : Nat) : CmdlineEnds m (info % 2 ^ 32) := by
  apply LoopEnds.of_advances
  refine (Loop.Advances.of_inv (I := fun _ => True) trivial ?_).1
  rintro ⟨p, cmdline⟩ -
  rw [cmdlineStep]
  by_cases hp : p < info % 2 ^ 32 + peek m (info % 2 ^ 32 + 4) 4
  · rw [if_pos hp]
    simp only
    by_cases hsize : peek m (p + 4) 4 = 0
    · exact Or.inl ⟨cmdline, if_pos hsize⟩
    · rw [if_neg hsize]
      exact Or.inr ⟨_, rfl, trivial, rfl, tag_next hp hsize⟩
  · exact Or.inl ⟨cmdline, if_neg hp⟩

/-- `kmain` finds out whether there is a command line. -/
theorem kmainCmdline_isSome (m : Mem) (bootMagic bootInfo : Nat) :
    (kmainCmdline m bootMagic bootInfo).isSome := by
  rw [kmainCmdline]
  split
  · rfl
  split
  · apply Option.isSome_iff_exists.mpr
    refine Loop.exec_total (I := fun _ => True) ?_ ?_ trivial
    · rintro ⟨p, cmdline⟩ s' hstep
      rw [cmdlineStep] at hstep
      split at hstep
      · simp only at hstep
        split at hstep
        · cases hstep
        · obtain rfl := Sum.inl.inj (Option.some.inj hstep)
          simp only
          omega
      · cases hstep
    · rintro ⟨p, cmdline⟩ -
      rw [cmdlineStep]
      split
      · simp only
        split
        · exact ⟨_, rfl, fun _ _ => trivial⟩
        · exact ⟨_, rfl, fun _ _ => trivial⟩
      · exact ⟨_, rfl, fun _ _ => trivial⟩
  · rfl

/-! ## Multiboot 1 -/

theorem mb1Step_eq (m : Mem) {mmapLen off : Nat} (mmapAddr best : Nat) (hoff : off < mmapLen) :
    ∃ best', mb1Step m mmapLen mmapAddr (off, best) =
      some (.inl ((off + mb1Size m mmapAddr off + 4) % 2 ^ 32, best')) :=
  ⟨_, if_pos hoff⟩

/-- As long as the walk moves on, it is at the offsets of the entries. -/
theorem Mb1Offset.reaches {mmapLen mmapAddr off : Nat}
    (A : Loop.Advances (mb1Step m mmapLen mmapAddr) (fun s => s.1)
      (fun s => s.1 + mb1Size m mmapAddr s.1 + 4) (2 ^ 32) (0, 0))
    (H : Mb1Offset m mmapLen mmapAddr off) :
    ∃ best, Loop.Reaches (mb1Step m mmapLen mmapAddr) (0, 0) (off, best) := by
  induction H with
  | first => exact ⟨0, .refl⟩
  | @next off _ hoff ih =>
    obtain ⟨best, hreach⟩ := ih
    obtain ⟨best', hstep⟩ := mb1Step_eq m mmapAddr best hoff
    obtain ⟨heq, -, -⟩ := A.next_lt hreach hstep
    have hoff' : (off + mb1Size m mmapAddr off + 4) % 2 ^ 32 =
      off + mb1Size m mmapAddr off + 4 := heq
    rw [hoff'] at hstep
    exact ⟨best', hreach.tail hstep⟩

theorem mb1Ends_iff (m : Mem) (bootInfo : Nat) : Mb1Ends m bootInfo ↔ Mb1Fits m bootInfo := by
  apply imp_congr_right
  intro _
  constructor
  · intro E off hoff hlt
    obtain ⟨best, hreach⟩ := hoff.reaches E.advances
    obtain ⟨best', hstep⟩ := mb1Step_eq m (peek m (bootInfo + 92) 4) best hlt
    exact (E.advances.next_lt hreach hstep).2.2
  · intro hfits
    apply LoopEnds.of_advances
    refine (Loop.Advances.of_inv (I := fun s => Mb1Offset m (peek m (bootInfo + 88) 4)
      (peek m (bootInfo + 92) 4) s.1) .first ?_).1
    rintro ⟨off, best⟩ hoff
    by_cases hlt : off < peek m (bootInfo + 88) 4
    · have htop := hfits off hoff hlt
      obtain ⟨best', hstep⟩ := mb1Step_eq m (peek m (bootInfo + 92) 4) best hlt
      rw [Nat.mod_eq_of_lt htop] at hstep
      exact Or.inr ⟨_, hstep, hoff.next hlt, rfl, by omega, htop⟩
    · exact Or.inl ⟨best, if_neg hlt⟩

/-! ## Multiboot 2 -/

theorem mb2EntryStep_eq (m : Mem) {esize elen off : Nat} (e best : Nat)
    (hoff : (off + esize) % 2 ^ 32 ≤ elen) : ∃ best',
    mb2EntryStep m e esize elen (off, best) = some (.inl ((off + esize) % 2 ^ 32, best')) :=
  ⟨_, if_pos hoff⟩

/-- The multiples of the entry size are reached as long as they are in the tag. -/
theorem entries_reach (m : Mem) (e : Nat) {esize elen : Nat} (hlen : elen < 2 ^ 32) (k : Nat)
    (hk : k ≤ elen / esize) : ∃ best,
    Loop.Reaches (mb2EntryStep m e esize elen) (0, 0) (k * esize, best) := by
  induction k with
  | zero => exact ⟨0, by rw [Nat.zero_mul]; exact .refl⟩
  | succ k ih =>
    obtain ⟨best, hr⟩ := ih (Nat.le_of_succ_le hk)
    have hle : (k + 1) * esize ≤ elen :=
      (Nat.mul_le_mul_right esize hk).trans (Nat.div_mul_le_self elen esize)
    have hmod : (k * esize + esize) % 2 ^ 32 = (k + 1) * esize := by
      rw [← Nat.succ_mul, Nat.mod_eq_of_lt (hle.trans_lt hlen)]
    obtain ⟨best', hstep⟩ := mb2EntryStep_eq m e best (hmod.symm ▸ hle)
    rw [hmod] at hstep
    exact ⟨best', hr.tail hstep⟩

/-- The loop over the entries of one tag. Its offsets are the multiples of the size, and the first one
beyond the length is where the sum must not wrap. -/
theorem entriesEnd_iff (m : Mem) (e : Nat) {esize elen : Nat} (hsize : esize < 2 ^ 32)
    (hlen : elen < 2 ^ 32) :
    Loop.Advances (mb2EntryStep m e esize elen) (fun s => s.1) (fun s => s.1 + esize) (2 ^ 32)
      (0, 0) ↔ EntriesFit esize elen := by
  constructor
  · intro A
    have hpos : esize ≠ 0 := by
      rintro rfl
      have hzero : (0 + 0) % 2 ^ 32 ≤ elen := Nat.zero_le elen
      obtain ⟨best', hstep⟩ := mb2EntryStep_eq m e 0 hzero
      exact Nat.lt_irrefl 0 (A.next_lt .refl hstep).2.1
    refine ⟨hpos, ?_⟩
    by_contra hwrap
    obtain ⟨best, hr⟩ := entries_reach m e hlen (elen / esize) le_rfl
    have hle : elen / esize * esize ≤ elen := Nat.div_mul_le_self elen esize
    rw [Nat.succ_mul] at hwrap
    have hmod : (elen / esize * esize + esize) % 2 ^ 32 ≤ elen := by omega
    obtain ⟨best', hstep⟩ := mb2EntryStep_eq m e best hmod
    exact hwrap (A.next_lt hr hstep).2.2
  · rintro ⟨hpos, hfits⟩
    refine (Loop.Advances.of_inv (I := fun s => ∃ k, s.1 = k * esize ∧ s.1 ≤ elen)
      ⟨0, (Nat.zero_mul esize).symm, Nat.zero_le elen⟩ ?_).1
    rintro ⟨off, best⟩ ⟨k, hk, hle⟩
    simp only at hk hle
    have hkle : k ≤ elen / esize :=
      (Nat.le_div_iff_mul_le (Nat.pos_of_ne_zero hpos)).mpr (hk ▸ hle)
    have htop : off + esize < 2 ^ 32 := by
      have hmul : off + esize ≤ (elen / esize + 1) * esize := by
        rw [hk, ← Nat.succ_mul]
        exact Nat.mul_le_mul_right esize (Nat.succ_le_succ hkle)
      exact hmul.trans_lt hfits
    have hmod : (off + esize) % 2 ^ 32 = off + esize := Nat.mod_eq_of_lt htop
    by_cases hin : (off + esize) % 2 ^ 32 ≤ elen
    · obtain ⟨best', hstep⟩ := mb2EntryStep_eq m e best hin
      rw [hmod] at hstep hin
      refine Or.inr ⟨_, hstep, ⟨k + 1, ?_, hin⟩, rfl, ?_, htop⟩
      · rw [Nat.succ_mul, ← hk]
      · exact Nat.lt_add_of_pos_right (Nat.pos_of_ne_zero hpos)
    · exact Or.inl ⟨best, if_neg hin⟩

/-- One round of the loop over the tags, when the entries come to an end. -/
theorem mb2Step_eq {fin p : Nat} (total : Nat) (hp : p < fin) (hsize : peek m (p + 4) 4 ≠ 0)
    (hentries : peek m p 4 = 6 → Mb2EntriesEnd m p) : ∃ total',
    mb2Step m fin (p, total) = some (.inl (p + peek m (p + 4) 4, total')) := by
  by_cases htype : peek m p 4 = 6
  · have hrun := (hentries htype).advances.run (n := OFF_ROUNDS)
      (by rw [OFF_ROUNDS]; exact Nat.lt_succ_self _)
    obtain ⟨best, hbest⟩ := hrun
    refine ⟨setTotal total best, ?_⟩
    rw [mb2Step, if_pos hp]
    simp only
    rw [if_neg hsize, if_pos htype, hbest]
    rfl
  · refine ⟨total, ?_⟩
    rw [mb2Step, if_pos hp]
    simp only
    rw [if_neg hsize, if_neg htype]

theorem mb2EntriesEnd_iff (m : Mem) (p : Nat) :
    Mb2EntriesEnd m p ↔ EntriesFit (peek m (p + 8) 4) (peek m (p + 12) 4) :=
  Iff.trans ⟨LoopEnds.advances, LoopEnds.of_advances⟩
    (entriesEnd_iff m (p + 16) (peek_lt m (p + 8) 4) (peek_lt m (p + 12) 4))

/-- As long as the loops end, the outer one is at the tags. -/
theorem Mb2Tag.reaches {info total p : Nat} (E : Mb2Ends m info total)
    (H : Mb2Tag m (info + peek m (info + 4) 4) (info + 8) p) : ∃ total',
    Loop.Reaches (mb2Step m (info + peek m (info + 4) 4)) (info + 8, total) (p, total') := by
  induction H with
  | first => exact ⟨total, .refl⟩
  | next _ hp hsize ih =>
    obtain ⟨total', hreach⟩ := ih
    obtain ⟨total'', hstep⟩ := mb2Step_eq total' hp hsize (E.entries _ _ hreach hp hsize)
    exact ⟨total'', hreach.tail hstep⟩

theorem mb2Ends_iff (m : Mem) (info total : Nat) :
    Mb2Ends m (info % 2 ^ 32) total ↔ Mb2Fits m (info % 2 ^ 32) := by
  constructor
  · intro E p htag hp hsize htype
    obtain ⟨total', hreach⟩ := htag.reaches E
    exact (mb2EntriesEnd_iff m p).mp (E.entries p total' hreach hp hsize htype)
  · intro hfits
    have hround : ∀ s : Nat × Nat, Mb2Tag m (info % 2 ^ 32 + peek m (info % 2 ^ 32 + 4) 4)
        (info % 2 ^ 32 + 8) s.1 →
        (∃ r, mb2Step m (info % 2 ^ 32 + peek m (info % 2 ^ 32 + 4) 4) s = some (.inr r)) ∨
        ∃ s', mb2Step m (info % 2 ^ 32 + peek m (info % 2 ^ 32 + 4) 4) s = some (.inl s') ∧
          Mb2Tag m (info % 2 ^ 32 + peek m (info % 2 ^ 32 + 4) 4) (info % 2 ^ 32 + 8) s'.1 ∧
          s'.1 = s.1 + peek m (s.1 + 4) 4 ∧ s.1 < s.1 + peek m (s.1 + 4) 4 ∧
          s.1 + peek m (s.1 + 4) 4 < 2 ^ 64 := by
      rintro ⟨p, tot⟩ htag
      by_cases hp : p < info % 2 ^ 32 + peek m (info % 2 ^ 32 + 4) 4
      · by_cases hsize : peek m (p + 4) 4 = 0
        · refine Or.inl ⟨tot, ?_⟩
          rw [mb2Step, if_pos hp]
          exact if_pos hsize
        · obtain ⟨total', hstep⟩ := mb2Step_eq tot hp hsize fun htype =>
            (mb2EntriesEnd_iff m p).mpr (hfits p htag hp hsize htype)
          exact Or.inr ⟨_, hstep, htag.next hp hsize, rfl, tag_next hp hsize⟩
      · exact Or.inl ⟨tot, if_neg hp⟩
    have hwalk : Loop.Advances (mb2Step m (info % 2 ^ 32 + peek m (info % 2 ^ 32 + 4) 4))
          (fun s => s.1) (fun s => s.1 + peek m (s.1 + 4) 4) (2 ^ 64)
          (info % 2 ^ 32 + 8, total) ∧
        ∀ s, Loop.Reaches (mb2Step m (info % 2 ^ 32 + peek m (info % 2 ^ 32 + 4) 4))
          (info % 2 ^ 32 + 8, total) s →
          Mb2Tag m (info % 2 ^ 32 + peek m (info % 2 ^ 32 + 4) 4) (info % 2 ^ 32 + 8) s.1 :=
      Loop.Advances.of_inv .first hround
    refine ⟨.of_advances hwalk.1, fun p tot hreach hp hsize htype => ?_⟩
    exact (mb2EntriesEnd_iff m p).mpr (hfits p (hwalk.2 _ hreach) hp hsize htype)

/-! ## All loops -/

/-- The loops end, moving on with every round, if and only if no entry of the map of Multiboot 1
reaches to the end of the 32 bits, and the entries of the maps of Multiboot 2 have a size with which
the search for the end does not wrap. -/
theorem walksEnd_iff (m : Mem) (magic info : Nat) : WalksEnd m magic info ↔
    (magic % 2 ^ 32 = BOOT_MAGIC_MB1 → Mb1Fits m (info % 2 ^ 32)) ∧
      (magic % 2 ^ 32 = BOOT_MAGIC_MB2 → Mb2Fits m (info % 2 ^ 32)) := by
  constructor
  · intro W
    exact ⟨fun h => (mb1Ends_iff m _).mp (W.mb1 h), fun h => (mb2Ends_iff m info _).mp (W.mb2 h)⟩
  · rintro ⟨hmb1, hmb2⟩
    exact ⟨fun _ => cdEnds m, fun h => (mb1Ends_iff m _).mpr (hmb1 h),
      fun h => (mb2Ends_iff m info _).mpr (hmb2 h), fun _ => cmdlineEnds m info⟩

/-- A map of 24 bytes at `0x1000`, in which the first entry has the size `0xFFFFFFFC`. -/
def wrappingMap : Mem := fun a =>
  if a = 0 then 0x40 else if a = 88 then 24 else if a = 93 then 0x10
  else if a = 0x1000 then 0xFC else if 0x1000 < a ∧ a < 0x1004 then 0xFF else 0

/-- The offset stays 0. -/
theorem not_walksEnd : ¬ ∀ (m : Mem) (magic info : Nat), WalksEnd m magic info := by
  intro h
  have E := (h wrappingMap BOOT_MAGIC_MB1 0).mb1 (by decide)
  have hfits := (mb1Ends_iff wrappingMap 0).mp E (by decide) 0 .first (by decide)
  revert hfits
  decide

end BojanOS
