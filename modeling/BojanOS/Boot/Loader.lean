import BojanOS.Boot.Image
import BojanOS.Boot.MemoryMap

/-!
# The loop of the boot loader (`cdboot.S`)

`read_chunk` reads up to 32 sectors of the disk at a time and copies them up to 1 MiB. The transfer
goes to `0000:7000`, and what is copied is meant to come from `0x70000`. The code is 16-bit code:
`rep movsl` counts in `cx` and takes its addresses from `si` and `di`, so it copies inside the first
64 KiB and nothing comes to 1 MiB. A transfer that reaches the loader itself, at `0x7C00`, is a
fault, `none`: what runs from there on is not this loop.
-/

namespace BojanOS

open Bytes Mkiso

namespace Loader

/-- `movl $0x00007000, dap_buf` -/
def DAP_BUF : Nat := 0x00007000

/-- `movl $0x70000, %esi` -/
def COPY_FROM : Nat := 0x70000

/-- Where the loader runs. -/
def LOADER : Nat := 0x7C00

/-- The address of a segment and an offset, the segment in the high word. -/
def physical (p : Nat) : Nat := p / 2 ^ 16 * 16 + p % 2 ^ 16

/-- INT 13h, AH=42h: `count` sectors of 2048 bytes from `lba` on to the address. -/
def int13Read (disk : List UInt8) (lba count addr : Nat) (m : Mem) : Option Mem :=
  let fin := addr + count * 2048
  if addr < LOADER ∧ LOADER < fin then none
  else some fun x => if addr ≤ x ∧ x < fin then disk.getD (lba * 2048 + (x - addr)) 0 else m x

/-- `flat_refresh` sets the data segments through `bx`, `movw $0x10, %bx`, and does not put it
back. -/
def flatRefresh (ebx : Nat) : Nat := ebx / 2 ^ 16 * 2 ^ 16 + 0x10

/-- `movsl`: four bytes are read, and then written. -/
def movsl (si di : Nat) (m : Mem) : Mem := fun x =>
  if di ≤ x ∧ x < di + 4 then m (si + (x - di)) else m x

/-- `rep movsl` in 16-bit code, with the three registers that it uses. -/
def repMovsl : Nat → Nat → Nat → Mem → Mem
  | 0, _, _, m => m
  | cx + 1, si, di, m => repMovsl cx ((si + 4) % 2 ^ 16) ((di + 4) % 2 ^ 16) (movsl si di m)

/-- The memory, and what is in `ebp`, in `ebx` and in `sectors_left`. -/
structure St where
  mem : Mem
  lba : Nat
  ebx : Nat
  sectorsLeft : Nat

/-- One round from `read_chunk` to `jnz read_chunk`. -/
def step (disk : List UInt8) (st : St) : Option (St ⊕ Mem) :=
  let dapCount := if st.sectorsLeft ≤ 32 then st.sectorsLeft else 32
  match int13Read disk st.lba dapCount (physical DAP_BUF) st.mem with
  | none => none
  | some mem =>
    let ebx := flatRefresh st.ebx
    let ecx := dapCount <<< 7
    let mem := repMovsl (ecx % 2 ^ 16) (COPY_FROM % 2 ^ 16) (ebx % 2 ^ 16) mem
    let sectorsLeft := st.sectorsLeft - dapCount
    if sectorsLeft ≠ 0 then
      some (.inl ⟨mem, (st.lba + dapCount) % 2 ^ 32, (ebx + dapCount <<< 9) % 2 ^ 32, sectorsLeft⟩)
    else some (.inr mem)

variable {kernel boot image : List UInt8} {midx : Nat} {m : Mem}

end Loader

end BojanOS
