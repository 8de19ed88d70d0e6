import BojanOS.Cmds.DeepPaths
import BojanOS.Shell.Argv
import BojanOS.Shell.Printf

/-!
# Listings (`cmd_ls`, `cmd_ll`)

`cmd_ll` calls `cmd_ls` with an array of its own. Its loop stops in front of the argument 30, and
the array has no room for the terminator behind 32 entries.
-/

namespace BojanOS

open Prog

/-! ## `ls` -/

/-- `print_entry`. Each access reads the node as it is then, since what was printed may be in it. -/
def printEntry (n : Nat) (longfmt : Bool) : Prog Unit := do
  if longfmt then do
    let v ← vfs
    puts (if (v.node n).type = .dir then "drwxr-xr-x".toList else "-rw-r--r--".toList)
    let v ← vfs
    putf " 1 root root %8u ".toList [.num (.int (BitVec.ofNat 32 (v.node n).size))]
  else pure ()
  let v ← vfs
  puts (v.nameOf n)
  if (v.node n).type = .dir then shPutc '/' else pure ()
  shPutc '\n'

/-- `ls_dir`. The children and their names stay as they are while it prints. -/
def lsDir (dir : Nat) (longfmt all : Bool) : Prog Int := do
  let v ← vfs
  (v.kids dir).forM fun c =>
    if ¬ all ∧ (v.nameOf c).head? = some '.' then pure () else printEntry c longfmt
  pure 0

/-- The loop over the operands; `first` is `i == idx`. -/
def lsOperands (longfmt all : Bool) : Bool → List (List Char) → Int → Prog Int
  | _, [], rc => pure rc
  | first, p :: ps, rc => do
    let v ← vfs
    match v.vfsResolve p with
    | none => do
      puts ("ls: ".toList ++ p ++ ": no such file or directory\n".toList)
      lsOperands longfmt all false ps 1
    | some n => do
      if (v.node n).type = .dir then do
        if first then pure () else puts ('\n' :: (p ++ ":\n".toList))
        let _ ← lsDir n longfmt all
        pure ()
      else printEntry n longfmt
      lsOperands longfmt all false ps rc

def cmdLs (argv : List (List Char)) : Prog Int := do
  let (letters, operands) := options (argv.drop 1)
  let longfmt := 'l' ∈ letters
  let all := 'a' ∈ letters
  if operands = [] then do
    let v ← vfs
    lsDir v.cwd longfmt all
  else lsOperands longfmt all true operands 0

/-! ## `ll` -/

/-- The call at the end of `cmd_ll`; `b` is what is on the stack where its array is. -/
def llCall (a b : Args) : Prog Int :=
  match cmdLl a b with
  | none => .fault
  | some b => cmdLs b.args

/-- The array holds the arguments, and the terminator behind them. -/
structure Args.Holds (a : Args) (items : List (List Char)) : Prop where
  argc : a.argc = items.length
  room : items.length < ARGV_MAX
  slots : ∀ j ≤ items.length, a.get j = items[j]?

/-- The call is the one of `ls -l` with the same arguments, whatever is on the stack. -/
def LlAgrees (items : List (List Char)) : Prop :=
  ∀ a a' b : Args, a.ofItems items = some a' → ∃ b', cmdLl a' b = some b' ∧
    b'.Holds ("ls".toList :: "-l".toList :: items.tail) ∧
    llCall a' b = cmdLs ("ls".toList :: "-l".toList :: items.tail)

variable {items : List (List Char)} {a a' b b' : Args}

theorem Args.Holds.args (H : a.Holds items) : a.args = items := by
  have hslots : ∀ j ∈ List.range items.length, a.get j = items[j]? := fun j hj =>
    H.slots j (List.mem_range.mp hj).le
  rw [Args.args, H.argc, List.filterMap_congr hslots, filterMap_getElem?]

/-- The loop of `cmd_ll` moves the arguments up by one slot. -/
theorem llLoop_get {s n : Nat}
    (h : (List.range' s n).foldlM (fun b i => b.set (i + 1) (a.get i)) b = some b') :
    b'.argc = b.argc ∧ (∀ j ≤ s, b'.get j = b.get j) ∧
      ∀ i, s ≤ i → i < s + n → b'.get (i + 1) = a.get i := by
  induction n generalizing s b with
  | zero =>
    obtain rfl := Option.some.inj h
    exact ⟨rfl, fun _ _ => rfl, fun i hi hi' => by omega⟩
  | succ n ih =>
    rw [List.range'_succ, List.foldlM_cons] at h
    obtain ⟨c, hc, h⟩ := Option.bind_eq_some_iff.mp h
    obtain ⟨-, hargc, hself, hother⟩ := Args.set_eq_some hc
    obtain ⟨hargc', hlow, hhigh⟩ := ih h
    refine ⟨hargc'.trans hargc, ?_, ?_⟩
    · intro j hj
      rw [hlow j (by omega), hother j (by omega)]
    · intro i hi hi'
      rcases Nat.eq_or_lt_of_le hi with rfl | hlt
      · rw [hlow (s + 1) le_rfl, hself]
      · exact hhigh i hlt (by omega)

/-- With an argument to spare the array is filled as `ls -l` would have it. -/
theorem cmdLl_holds {items : List (List Char)} {a₀ a b b' : Args} (ha : a₀.ofItems items = some a)
    (hne : items ≠ []) (hle : items.length ≤ 30) (h : cmdLl a b = some b') :
    b'.Holds ("ls".toList :: "-l".toList :: items.tail) := by
  obtain ⟨hargc, -, hget⟩ := Args.fill_spec ha
  have hargc : a.argc = items.length := hargc
  have hpos := List.length_pos_iff.mpr hne
  have hlength : ("ls".toList :: "-l".toList :: items.tail).length = items.length + 1 := by
    rw [List.length_cons, List.length_cons, List.length_tail]
    omega
  rw [cmdLl] at h
  obtain ⟨b₁, h₁, h⟩ := Option.bind_eq_some_iff.mp h
  obtain ⟨b₂, h₂, h⟩ := Option.bind_eq_some_iff.mp h
  obtain ⟨b₃, h₃, h⟩ := Option.bind_eq_some_iff.mp h
  obtain ⟨-, hargc₁, hself₁, -⟩ := Args.set_eq_some h₁
  obtain ⟨-, hargc₂, hself₂, hother₂⟩ := Args.set_eq_some h₂
  obtain ⟨hargc₃, hlow, hhigh⟩ := llLoop_get h₃
  obtain ⟨-, hargc', hself, hother⟩ := Args.set_eq_some h
  have hend : b₃.argc = items.length + 1 := by
    rw [hargc₃, hargc₂, hargc₁, hargc]
  rw [hend] at hself hother
  refine ⟨by rw [hargc', hend, hlength], by rw [hlength, ARGV_MAX]; omega, ?_⟩
  rw [hlength]
  intro j hj
  rcases Nat.eq_or_lt_of_le hj with rfl | hlt
  · rw [hself, List.getElem?_eq_none hlength.le]
  rw [hother j hlt.ne]
  rcases j with _ | _ | i
  · rw [hlow 0 (by decide), hother₂ 0 (by decide), hself₁]
    rfl
  · rw [hlow 1 le_rfl, hself₂]
    rfl
  · -- the loop stops at 30, which is behind the last argument
    have hi : i + 1 < 1 + (min a.argc 30 - 1) := by
      rw [hargc]
      omega
    have hitem := hget (i + 1) (by omega)
    rw [Nat.zero_add] at hitem
    rw [hhigh (i + 1) (Nat.le_add_left 1 i) hi, hitem]
    exact List.getElem?_tail.symm

/-- `ll` is `ls -l` as long as it has at most 30 arguments, its name included. -/
theorem llAgrees_iff {items : List (List Char)} (hne : items ≠ []) (hle : items.length < ARGV_MAX) :
    LlAgrees items ↔ items.length ≤ 30 := by
  constructor
  · intro H
    have hroom := Args.ofItems_isSome (a := ⟨0, fun _ => none⟩).mpr hle
    obtain ⟨a, ha⟩ := Option.isSome_iff_exists.mp hroom
    obtain ⟨b', hb, -⟩ := H _ a ⟨0, fun _ => none⟩ ha
    have hlt := cmdLl_isSome.mp (Option.isSome_iff_exists.mpr ⟨b', hb⟩)
    rw [(Args.ofItems_args ha).1, ARGV_MAX] at hlt
    omega
  · intro hle a₀ a b ha
    have hlt : a.argc + 1 < ARGV_MAX := by
      rw [(Args.ofItems_args ha).1, ARGV_MAX]
      omega
    obtain ⟨b', hb⟩ := Option.isSome_iff_exists.mp (cmdLl_isSome.mpr hlt)
    have H := cmdLl_holds ha hne hle hb
    refine ⟨b', hb, H, ?_⟩
    rw [llCall, hb, ← H.args]

theorem llAgrees_iff_name : LlAgrees ["ll".toList] :=
  (llAgrees_iff (List.cons_ne_nil _ _) (by decide)).mpr (by decide)

/-- The terminator of the 32 entries is behind the array. -/
theorem not_llAgrees_full : ∃ items : List (List Char), items ≠ [] ∧ items.length < ARGV_MAX ∧
    ¬ LlAgrees items := by
  refine ⟨"ll".toList :: List.replicate 30 ['x'], List.cons_ne_nil _ _, by decide, fun H => ?_⟩
  have hroom : (Args.ofItems ⟨0, fun _ => none⟩ ("ll".toList :: List.replicate 30 ['x'])).isSome :=
    Args.ofItems_isSome.mpr (by decide)
  obtain ⟨a, ha⟩ := Option.isSome_iff_exists.mp hroom
  obtain ⟨b', hb, -⟩ := H _ a ⟨0, fun _ => none⟩ ha
  have hlt := cmdLl_isSome.mp (Option.isSome_iff_exists.mpr ⟨b', hb⟩)
  rw [(Args.ofItems_args ha).1] at hlt
  exact absurd hlt (by decide)

end BojanOS
