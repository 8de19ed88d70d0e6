import BojanOS.Cmds.Diff
import BojanOS.Shell.Redirs
import BojanOS.Vfs.FreshHeap
import BojanOS.Vfs.HeapEnd

/-!
# The verdict of `diff`

The heap has 16 MiB at most, and so the table of `cmd_diff` is small in one direction if it is long
in the other. The first cell can then only be zero for lists of which one is the other with further
lines behind it, a multiple of 65536 of them.
-/

namespace BojanOS

open Prog EditDistance

/-! ## The size of the table -/

/-- The heap is in the region that `kheap_init` may give it. -/
structure Ram.InRegion (r : Ram) : Prop where
  used_le : r.heap.used ≤ r.heap.total
  total_le : r.heap.total ≤ HEAP_MAX - HEAP_START

theorem Ram.InRegion.kmalloc {r : Ram} (H : r.InRegion) (n : Nat) : (r.kmalloc n).2.InRegion := by
  rw [Ram.kmalloc]
  split
  · exact ⟨H.used_le, H.total_le⟩
  · rw [Kheap.kmalloc]
    simp only
    split
    · exact ⟨H.used_le, H.total_le⟩
    · rename_i hfit
      exact ⟨Nat.not_lt.mp hfit, H.total_le⟩

theorem Ram.InRegion.granted {r : Ram} (H : r.InRegion) {n p : Nat} (hn : n ≤ 2 ^ 63)
    (h : (r.kmalloc n).1 = some p) : n ≤ HEAP_MAX - HEAP_START := by
  have hregion : HEAP_MAX - HEAP_START ≤ 2 ^ 60 := by decide
  have hr : r.Ok := ⟨H.used_le, H.total_le.trans hregion⟩
  obtain ⟨-, -, -, hblock⟩ := Ram.kmalloc_spec hr hn
  have hfit := (hblock p h).2
  have hused := (H.kmalloc n).used_le
  have htotal := (H.kmalloc n).total_le
  omega

section

variable {lines : Option Nat} {text line : List Char} {out ls : List (List Char)} {r r' : Ram}

theorem addLine_inRegion (H : r.InRegion) (h : addLine lines line out r = some (ls, r')) :
    r'.InRegion := by
  have H₁ := H.kmalloc (line.length + 1)
  rw [addLine] at h
  split at h
  · cases h
  · rename_i hk
    rw [hk] at H₁
    split at h
    · cases h
    · exact (Prod.mk.inj (Option.some.inj h)).2 ▸ H₁

theorem splitLoop_inRegion (H : r.InRegion) (h : splitLoop lines text line out r = some (ls, r')) :
    r'.InRegion := by
  induction text generalizing line out r with
  | nil =>
    rw [splitLoop] at h
    split at h
    · exact (Prod.mk.inj (Option.some.inj h)).2 ▸ H
    · exact addLine_inRegion H h
  | cons c text ih =>
    rw [splitLoop] at h
    split at h
    · split at h
      · cases h
      · rename_i h₁
        exact ih (addLine_inRegion H h₁) h
    · exact ih H h

theorem splitLines_inRegion {data : Option (List Char)} (H : r.InRegion)
    (h : splitLines data r = some (ls, r')) : r'.InRegion := by
  rcases data with _ | _ | ⟨c, text⟩
  · exact (Prod.mk.inj (Option.some.inj h)).2 ▸ H.kmalloc _
  · exact (Prod.mk.inj (Option.some.inj h)).2 ▸ H.kmalloc _
  · exact splitLoop_inRegion (H.kmalloc _) h

end

theorem length_lineTexts_le (line text : List Char) :
    (lineTexts line text).length ≤ text.length + if line = [] then 0 else 1 := by
  induction text generalizing line with
  | nil =>
    rw [lineTexts]
    split_ifs
    · exact Nat.le_refl 0
    · exact Nat.le_refl 1
  | cons c text ih =>
    rw [lineTexts, List.length_cons]
    apply le_trans _ (Nat.le_add_right _ _)
    by_cases hc : c = '\n'
    · rw [if_pos hc]
      exact Nat.succ_le_succ (ih [])
    · have hrest := ih (line ++ [c])
      rw [if_neg (by simp)] at hrest
      rwa [if_neg hc]

/-- A file that is opened is not changed, and it is in the heap. -/
theorem openInput_file {fuel : Nat} {path : List Char} {σ σ₁ : Shell} {data : Option (List Char)}
    (H : σ.vfs.HeapOk) (h : (openInput fuel (some path)).run σ = some (some data, σ₁)) :
    σ₁ = σ ∧ (data.getD []).length ≤ σ.vfs.ram.heap.total := by
  rw [openInput, run_bind, run_vfs, Option.bind_some] at h
  split at h
  · cases (of_run_say h).1
  · rename_i n hn
    obtain ⟨hdata, rfl⟩ := Prod.mk.inj (Option.some.inj h)
    refine ⟨rfl, ?_⟩
    rw [← Option.some.inj hdata]
    cases hd : (σ.vfs.node n).data with
    | none => exact Nat.zero_le _
    | some d =>
      have hbelow := H.below hd
      have hroom := H.room hd
      have hused := H.ram.used_le
      rw [Option.map_some, Option.getD_some, H.length_contents]
      omega

theorem splitInput_cases {data : Option (List Char)} {σ σ₁ : Shell} {ls : List (List Char)}
    (h : (splitInput data).run σ = some (ls, σ₁)) :
    ∃ ram, splitLines data σ.vfs.ram = some (ls, ram) ∧
      σ₁ = { σ with vfs := { σ.vfs with ram } } := by
  obtain ⟨v, hv, rfl⟩ := of_run_fs h
  obtain ⟨⟨ls', ram⟩, hls, hram⟩ := Option.map_eq_some_iff.mp hv
  obtain ⟨rfl, rfl⟩ := Prod.mk.inj hram
  exact ⟨ram, hls, rfl⟩

theorem diffStart_cases {σ σ₁ : Shell} {p q : List Char} {la lb : List (List Char)} {d : Option Nat}
    (h : (diffStart p q).run σ = some (some (la, lb, d), σ₁)) :
    ∃ a b τ τ' r₁ r₂, (openInput 0 (some p)).run σ = some (some a, τ) ∧
      (openInput 0 (some q)).run τ = some (some b, τ') ∧
      splitLines a τ'.vfs.ram = some (la, r₁) ∧ splitLines b r₁ = some (lb, r₂) ∧
      (r₂.kmalloc (2 * (la.length + 1) * (lb.length + 1))).1 = d := by
  rw [diffStart] at h
  obtain ⟨a, τ, ha, h₁⟩ := of_run_bind h
  cases a with
  | none => cases (Prod.mk.inj (Option.some.inj h₁)).1
  | some a =>
    obtain ⟨b, τ', hb, h₂⟩ := of_run_bind h₁
    cases b with
    | none => cases (Prod.mk.inj (Option.some.inj h₂)).1
    | some b =>
      obtain ⟨la', τ₁, hla, h₃⟩ := of_run_bind h₂
      obtain ⟨lb', τ₂, hlb, h₄⟩ := of_run_bind h₃
      obtain ⟨d', τ₃, hd, h₅⟩ := of_run_bind h₄
      obtain ⟨r₁, hr₁, rfl⟩ := splitInput_cases hla
      obtain ⟨r₂, hr₂, rfl⟩ := splitInput_cases hlb
      obtain ⟨v, hv, rfl⟩ := of_run_fs hd
      obtain ⟨hres, rfl⟩ := Prod.mk.inj (Option.some.inj h₅)
      obtain ⟨rfl, hrest⟩ := Prod.mk.inj (Option.some.inj hres)
      obtain ⟨rfl, rfl⟩ := Prod.mk.inj hrest
      exact ⟨a, b, τ, τ', r₁, r₂, ha, hb, hr₁, hr₂, (Prod.mk.inj (Option.some.inj hv)).1⟩

/-- The table is a block of the heap. -/
theorem diffStart_table {σ σ₁ : Shell} {p q : List Char} {la lb : List (List Char)} {block : Nat}
    (H : σ.vfs.HeapOk) (htotal : σ.vfs.ram.heap.total ≤ HEAP_MAX - HEAP_START)
    (h : (diffStart p q).run σ = some (some (la, lb, some block), σ₁)) :
    2 * (la.length + 1) * (lb.length + 1) ≤ HEAP_MAX - HEAP_START := by
  obtain ⟨a, b, τ, τ', r₁, r₂, ha, hb, hla, hlb, hd⟩ := diffStart_cases h
  obtain ⟨hτ, hasize⟩ := openInput_file H ha
  rw [hτ] at hb
  obtain ⟨hτ', hbsize⟩ := openInput_file H hb
  rw [hτ'] at hla
  have hshort : ∀ {data : Option (List Char)} {ls : List (List Char)} {r r' : Ram},
      (data.getD []).length ≤ σ.vfs.ram.heap.total → splitLines data r = some (ls, r') →
      ls.length + 1 ≤ 2 ^ 25 := by
    intro data ls r r' hsize hls
    have hmax : HEAP_MAX - HEAP_START + 1 ≤ 2 ^ 25 := by decide
    have hlen := length_lineTexts_le [] (data.getD [])
    rw [← splitLines_eq hls, if_pos rfl] at hlen
    omega
  have hR : σ.vfs.ram.InRegion := ⟨H.ram.used_le, htotal⟩
  apply (splitLines_inRegion (splitLines_inRegion hR hla) hlb).granted _ hd
  calc 2 * (la.length + 1) * (lb.length + 1)
      ≤ 2 * 2 ^ 25 * 2 ^ 25 :=
        Nat.mul_le_mul (Nat.mul_le_mul_left 2 (hshort hasize hla)) (hshort hbsize hlb)
    _ ≤ 2 ^ 63 := by decide

/-- If one list has too many lines for a cell, the other has few. -/
theorem lopsided {n m : Nat} (h : 2 * (n + 1) * (m + 1) ≤ HEAP_MAX - HEAP_START) :
    n < CELL ∨ 2 * m ≤ CELL := by
  by_contra hboth
  obtain ⟨hn, hm⟩ := not_or.mp hboth
  have hmax : HEAP_MAX - HEAP_START < 2 * (CELL + 1) * (128 + 1) := by decide
  have hcell : 2 * 128 < CELL := by decide
  have hmul : 2 * (CELL + 1) * (128 + 1) ≤ 2 * (n + 1) * (m + 1) :=
    Nat.mul_le_mul (by omega) (by omega)
  exact Nat.not_lt.mpr (hmul.trans h) hmax

/-! ## The verdict -/

/-- The verdict is right for exactly those lists of which none is the other one with a multiple of
65536 further lines behind it. The lines are strings, as for `strcmp`. -/
theorem diff_iff {σ σ₁ : Shell} {p q : List Char} {la lb : List (List Char)} {block : Nat}
    (name : List Char) (rest : List (List Char)) (hs : Running σ.vfs)
    (h : (diffStart p q).run σ = some (some (la, lb, some block), σ₁)) :
    ∃ out rc, Prints (cmdDiff (name :: p :: q :: rest)) σ σ₁ out rc ∧
      ((rc = 0 ∧ out = "Files are identical\n".toList ↔ strings la = strings lb) ↔
        ¬ ∃ t, t ≠ [] ∧ CELL ∣ t.length ∧
          (strings la = strings lb ++ t ∨ strings lb = strings la ++ t)) := by
  have htable := diffStart_table hs.heapOk hs.total_le h
  have ha := lopsided htable
  have hb := lopsided (n := lb.length) (m := la.length) (by rwa [Nat.mul_right_comm])
  rw [← length_strings la, ← length_strings lb] at ha hb
  have hcell := cell_eq_zero_iff (by decide) ha hb
  have hequal : strings la = strings lb → ¬ ∃ t, t ≠ [] ∧ CELL ∣ t.length ∧
      (strings la = strings lb ++ t ∨ strings lb = strings la ++ t) := by
    rintro he ⟨t, ht, -, happ⟩
    rw [he, or_self, List.self_eq_append_right] at happ
    exact ht happ
  have hprint := cmdDiff_prints name rest h
  by_cases hz : cell CELL (strings la) (strings lb) = 0
  · refine ⟨_, _, hprint.1 hz, ?_⟩
    obtain ⟨t, hdvd, happ⟩ := hcell.mp hz
    have hsay : (0 : Int) = 0 ∧ "Files are identical\n".toList = "Files are identical\n".toList :=
      ⟨rfl, rfl⟩
    rw [iff_true_left hsay]
    refine ⟨hequal, fun hno => ?_⟩
    have ht : t = [] := by_contra fun ht => hno ⟨t, ht, hdvd, happ⟩
    rw [ht, List.append_nil, List.append_nil] at happ
    exact happ.elim id Eq.symm
  · obtain ⟨script, hp, -⟩ := hprint.2 hz
    refine ⟨_, _, hp, ?_⟩
    have hne : strings la ≠ strings lb := fun he =>
      hz (hcell.mpr ⟨[], dvd_zero _, .inl (by rw [he, List.append_nil])⟩)
    refine iff_of_true (iff_of_false (fun h => absurd h.1 (by decide)) hne) ?_
    rintro ⟨t, -, hdvd, happ⟩
    exact hz (hcell.mpr ⟨t, hdvd, happ⟩)

theorem diff_boot_differ : ∃ σ₁ out rc,
    Prints (cmdDiff ["diff".toList, "/etc/hostname".toList, "/etc/os-release".toList]) bootShell
      σ₁ out rc ∧ ¬ (rc = 0 ∧ out = "Files are identical\n".toList) := by
  obtain ⟨la, lb, block, σ₁, h, hla, hlb, hne⟩ := diffStart_boot
  obtain ⟨out, rc, hp, hiff⟩ := diff_iff "diff".toList [] bootShell_running h
  refine ⟨σ₁, out, rc, hp, fun hsame => hne ((hiff.mpr ?_).mp hsame)⟩
  rintro ⟨t, ht, hdvd, happ⟩
  have hcell : CELL = 65536 := by decide
  have hlong : CELL ≤ t.length := Nat.le_of_dvd (List.length_pos_iff.mpr ht) hdvd
  rcases happ with happ | happ
  · have := congrArg List.length happ
    rw [List.length_append, length_strings, length_strings] at this
    omega
  · have := congrArg List.length happ
    rw [List.length_append, length_strings, length_strings] at this
    omega

/-! ## A file with more lines than a cell can count -/

/-- Nothing is refused, and `k` bytes are left. -/
structure Ram.Room (r : Ram) (k : Nat) : Prop where
  deny : ∀ i, r.deny i = false
  left : r.heap.used + k ≤ r.heap.total
  total_le : r.heap.total ≤ HEAP_MAX - HEAP_START

namespace Ram.Room

variable {r : Ram} {n k : Nat}

theorem mono (H : r.Room n) (h : k ≤ n) : r.Room k :=
  ⟨H.deny, le_trans (Nat.add_le_add_left h _) H.left, H.total_le⟩

/-- The rounding takes 15 bytes at most. -/
theorem kmalloc (H : r.Room (n + 15 + k)) :
    ∃ r', r.kmalloc n = (some r.heap.used, r') ∧ r'.Room k := by
  have hleft := H.left
  have htotal : r.heap.total < 2 ^ 64 := H.total_le.trans_lt (by decide)
  have hround : (n + 15) / 16 * 16 ≤ n + 15 := Nat.div_mul_le_self _ _
  refine ⟨_, kmalloc_granted (H.deny 0) (Kheap.alignUp_sixteen ?_) ?_ htotal,
    fun i => H.deny (i + 1), ?_, H.total_le⟩
  · omega
  · omega
  · simp only
    omega

theorem addLine (p : Nat) {line : List Char} (out : List (List Char))
    (H : r.Room (line.length + 16 + k)) :
    ∃ r', BojanOS.addLine (some p) line out r = some (out ++ [line], r') ∧ r'.Room k := by
  obtain ⟨r', hr, H'⟩ := H.kmalloc (n := line.length + 1)
  refine ⟨r', ?_, H'⟩
  rw [BojanOS.addLine, hr]
  rfl

theorem splitLoop (p : Nat) {text : List Char} (line : List Char) (out : List (List Char))
    (H : r.Room (line.length + 16 + (17 * text.length + k))) :
    ∃ r', BojanOS.splitLoop (some p) text line out r = some (out ++ lineTexts line text, r') ∧
      r'.Room k := by
  induction text generalizing line out r with
  | nil =>
    rw [List.length_nil, Nat.mul_zero, Nat.zero_add] at H
    rw [BojanOS.splitLoop, lineTexts]
    split_ifs
    · exact ⟨r, by rw [List.append_nil], H.mono (Nat.le_add_left _ _)⟩
    · exact H.addLine p out
  | cons c text ih =>
    rw [List.length_cons] at H
    rw [BojanOS.splitLoop, lineTexts]
    split_ifs
    · obtain ⟨r₁, h₁, H₁⟩ := (H.mono (k := line.length + 16 + (17 * text.length + 17 + k))
        (by omega)).addLine p out
      obtain ⟨r', h', H'⟩ := ih [] (out ++ [line]) (H₁.mono (by simp; omega))
      refine ⟨r', ?_, H'⟩
      rw [h₁]
      simp only [h', List.append_assoc, List.singleton_append]
    · apply ih _ _ (H.mono _)
      rw [List.length_append, List.length_singleton]
      omega

/-- The array has a pointer for each line, and one more. -/
theorem splitLines {text : List Char} (hne : text ≠ [])
    (H : r.Room (25 * text.length + 64 + k)) :
    ∃ r', BojanOS.splitLines (some text) r = some (lineTexts [] text, r') ∧ r'.Room k := by
  have hcount : lineCount text ≤ text.length + 1 := by
    have hnew := List.count_le_length (a := '\n') (l := text)
    rw [lineCount]
    split_ifs
    · omega
    · omega
  have hsize : SIZEOF_PTR = 8 := rfl
  obtain ⟨r₁, h₁, H₁⟩ := (H.mono (k := SIZEOF_PTR * (lineCount text + 1) + 15 +
    (0 + 16 + (17 * text.length + k))) (by rw [hsize]; omega)).kmalloc
  obtain ⟨r', h', H'⟩ := H₁.splitLoop r.heap.used [] []
  refine ⟨r', ?_, H'⟩
  obtain ⟨c, text, rfl⟩ := List.exists_cons_of_ne_nil hne
  simp only [BojanOS.splitLines, h₁]
  exact h'

end Ram.Room

theorem openInput_some {fuel : Nat} {path a : List Char} {σ : Shell} {n : Nat}
    (hn : σ.vfs.vfsResolve path = some n) (hf : (σ.vfs.node n).type = .file)
    (ha : σ.vfs.contents n = a) (hne : a ≠ []) :
    (openInput fuel (some path)).run σ = some (some (some a), σ) := by
  obtain ⟨data, hrun, hdata⟩ : Opens fuel (some path) σ _ σ := opens_file hn hf
  rw [ha] at hdata
  cases data with
  | none => exact absurd hdata.symm hne
  | some d => exact hdata ▸ hrun

theorem splitInput_some {σ : Shell} {text : List Char} {k : Nat} (hne : text ≠ [])
    (H : σ.vfs.ram.Room (25 * text.length + 64 + k)) :
    ∃ ram, (splitInput (some text)).run σ =
      some (lineTexts [] text, { σ with vfs := { σ.vfs with ram } }) ∧ ram.Room k := by
  obtain ⟨ram, hls, H'⟩ := H.splitLines hne
  refine ⟨ram, ?_, H'⟩
  rw [splitInput, run_fs, hls]
  rfl

/-- With enough memory `cmd_diff` gets as far as its table. -/
theorem diffStart_some {σ : Shell} {p q a b : List Char} {n m k : Nat}
    (hn : σ.vfs.vfsResolve p = some n) (hm : σ.vfs.vfsResolve q = some m)
    (hnf : (σ.vfs.node n).type = .file) (hmf : (σ.vfs.node m).type = .file)
    (ha : σ.vfs.contents n = a) (hb : σ.vfs.contents m = b) (hane : a ≠ []) (hbne : b ≠ [])
    (hk : 2 * ((lineTexts [] a).length + 1) * ((lineTexts [] b).length + 1) + 15 ≤ k)
    (H : σ.vfs.ram.Room (25 * a.length + 64 + (25 * b.length + 64 + k))) :
    ∃ block σ₁, (diffStart p q).run σ =
        some (some (lineTexts [] a, lineTexts [] b, some block), σ₁) ∧
      σ₁.outFile = σ.outFile ∧ σ₁.pipeWriting = σ.pipeWriting := by
  obtain ⟨r₁, h₁, H₁⟩ := splitInput_some hane H
  obtain ⟨r₂, h₂, H₂⟩ := splitInput_some (σ := { σ with vfs := { σ.vfs with ram := r₁ } }) hbne H₁
  obtain ⟨r₃, h₃, -⟩ := (H₂.mono hk).kmalloc (k := 0)
  refine ⟨r₂.heap.used, { σ with vfs := { σ.vfs with ram := r₃ } }, ?_, rfl, rfl⟩
  simp only [diffStart, run_bind, openInput_some hn hnf ha hane, openInput_some hm hmf hb hbne,
    Option.bind_some, h₁, h₂, run_fs, h₃]
  rfl

theorem vfsWriteFile_some {s : Vfs} {n len c k : Nat} (src : Src) (hf : (s.node n).type = .file)
    (hgrow : (s.node n).cap < len + 1) (hc : Vfs.newCap (s.node n) (len + 1) = c)
    (H : s.ram.Room (c + 15 + k)) :
    ∃ s', s.vfsWriteFile n src len = (true, s') ∧ s'.ram.Room k := by
  obtain ⟨r', hr, H'⟩ := H.kmalloc
  rw [Vfs.vfsWriteFile, if_neg (by rw [hf]; decide), Vfs.growFile]
  simp only [if_pos hgrow, hc, hr]
  exact ⟨_, rfl, H'.deny, H'.left, H'.total_le⟩

/-- The name of the host, and `n` empty lines. -/
def hostLines (n : Nat) : List (List Char) := "bojanos".toList :: List.replicate n []

theorem length_hostLines (n : Nat) : (hostLines n).length = n + 1 := by
  rw [hostLines, List.length_cons, List.length_replicate]

theorem length_hostText (n : Nat) : (unlines (hostLines n)).length = 8 + n := by
  rw [hostLines, unlines, List.flatMap_cons, List.flatMap_replicate]
  simp
  omega

theorem strings_hostLines (n : Nat) : strings (hostLines n) = hostLines n := by
  rw [strings, hostLines, List.map_cons, List.map_replicate]
  rfl

/-- After the boot; no request is refused from here on. -/
def grantingVfs : Vfs := { bootVfs with ram := { bootVfs.ram with deny := fun _ => false } }

/-- With another text in `/etc/motd`. -/
def motdWith (text : List Char) : Shell :=
  { bootShell with vfs := (grantingVfs.vfsWriteFile 9 (.ext text) text.length).2 }

theorem Ram.Grew.deny {r : Ram} (h : r.Ok) (deny : Nat → Bool) : r.Grew { r with deny } :=
  ⟨⟨h.used_le, h.total_le⟩, rfl, Nat.le_refl _, fun _ _ => rfl⟩

theorem grantingVfs_running : Running grantingVfs := by
  rw [grantingVfs]
  exact .alloc (.boot bootVfs_booted) (.deny bootVfs_booted.heapOk.ram _)

theorem motdWith_files {text : List Char} {c k : Nat} (hlen : text.length ≤ ADDRESS_SPACE)
    (hgrow : (grantingVfs.node 9).cap < text.length + 1)
    (hcap : Vfs.newCap (grantingVfs.node 9) (text.length + 1) = c)
    (hroom : grantingVfs.ram.Room (c + 15 + k)) :
    Running (motdWith text).vfs ∧ (motdWith text).vfs.ram.Room k ∧
      grantingVfs.SameTree (motdWith text).vfs ∧
      (motdWith text).vfs.contents = Function.update grantingVfs.contents 9 text := by
  have hboot : 9 < grantingVfs.next ∧ (grantingVfs.node 9).type = .file := by
    rw [grantingVfs, bootVfs_spelled]
    decide +kernel
  obtain ⟨hnext, hf⟩ := hboot
  obtain ⟨s', hw, hroom⟩ := vfsWriteFile_some (.ext text) hf hgrow hcap hroom
  have hvfs : (motdWith text).vfs = s' := by rw [motdWith, hw]
  have hstep : (FsOp.writeFile 9 (.ext text hlen)).step grantingVfs = some (true, s') := by
    rw [FsOp.step, if_pos hnext, Bytes.arg, Option.map_some]
    exact congrArg some hw
  have hs := grantingVfs_running
  have hsound : grantingVfs.Sound text.length (.ext text) := trivial
  have hcontents := (hs.heapOk.vfsWriteFile hsound (hlen.trans (by decide)) hnext hw).2
  rw [if_pos rfl, Src.bytes_ext] at hcontents
  rw [hvfs]
  exact ⟨.op hs hstep, hroom, FsOp.step_sameTree hstep trivial, hcontents⟩

theorem lineTexts_hostLines (n : Nat) : lineTexts [] (unlines (hostLines n)) = hostLines n := by
  apply lineTexts_unlines
  intro l hl
  rcases List.mem_cons.mp hl with rfl | hl
  · decide
  · rw [List.eq_of_mem_replicate hl]
    exact List.not_mem_nil

/-- 65536 empty lines more are not seen. -/
theorem cell_hostLines : cell CELL (hostLines CELL) (hostLines 0) = 0 := by
  have hmore : ∀ n, hostLines n = hostLines 0 ++ List.replicate n [] := fun _ => rfl
  apply (cell_eq_zero_iff (by decide) _ _).mpr ⟨_, _, .inl (hmore CELL)⟩
  · rw [length_hostLines]
    exact .inr (by decide)
  · rw [length_hostLines]
    exact .inl (by decide)
  · rw [List.length_replicate]

/-- `diff /etc/motd /etc/hostname`, with 65536 lines more in the first file. -/
theorem diff_wraps : ¬ ∀ (σ σ₁ : Shell) (p q : List Char) (la lb : List (List Char)) (block : Nat),
    Running σ.vfs →
    (diffStart p q).run σ = some (some (la, lb, some block), σ₁) →
    ∃ out rc, Prints (cmdDiff ["diff".toList, p, q]) σ σ₁ out rc ∧
      (rc = 0 ∧ out = "Files are identical\n".toList ↔ strings la = strings lb) := by
  intro H
  have hboot : grantingVfs.ram.heap.used + (131072 + 15 + 4000000) ≤ grantingVfs.ram.heap.total ∧
      grantingVfs.ram.heap.total ≤ HEAP_MAX - HEAP_START ∧
      grantingVfs.vfsResolve "/etc/motd".toList = some 9 ∧
      grantingVfs.vfsResolve "/etc/hostname".toList = some 10 ∧
      (grantingVfs.node 9).type = .file ∧ (grantingVfs.node 10).type = .file ∧
      (grantingVfs.node 9).cap < 8 + CELL + 1 ∧
      Vfs.newCap (grantingVfs.node 9) (8 + CELL + 1) = 131072 ∧
      grantingVfs.contents 10 = unlines (hostLines 0) := by
    rw [grantingVfs, bootVfs_spelled]
    decide +kernel
  obtain ⟨hleft, htotal, hmotd, hhost, hf₉, hf₁₀, hgrow, hcap, htext⟩ := hboot
  have hlen := length_hostText CELL
  rw [← hlen] at hgrow hcap
  obtain ⟨hs, hroom, S, hcontents⟩ := motdWith_files (by rw [hlen]; decide) hgrow hcap
    ⟨fun _ => by rw [grantingVfs], hleft, htotal⟩
  have hne : ∀ n, unlines (hostLines n) ≠ [] := fun n h => by simp [unlines, hostLines] at h
  have htable : 2 * ((lineTexts [] (unlines (hostLines CELL))).length + 1) *
      ((lineTexts [] (unlines (hostLines 0))).length + 1) + 15 ≤ 400000 := by
    rw [lineTexts_hostLines, lineTexts_hostLines, length_hostLines, length_hostLines]
    decide
  obtain ⟨block, σ₁, h, hout, hpipe⟩ := diffStart_some ((S.vfsResolve _).trans hmotd)
    ((S.vfsResolve _).trans hhost) ((S.type 9).trans hf₉) ((S.type 10).trans hf₁₀)
    (by rw [hcontents, Function.update_self])
    (by rw [hcontents, Function.update_of_ne (by decide), htext]) (hne _) (hne _) htable
    (hroom.mono (by rw [hlen, length_hostText]; decide))
  rw [lineTexts_hostLines, lineTexts_hostLines] at h
  have hprint := (cmdDiff_prints "diff".toList [] h).1 (by
    rw [strings_hostLines, strings_hostLines]
    exact cell_hostLines)
  obtain ⟨out, rc, hp, hiff⟩ := H _ _ _ _ _ _ _ hs h
  have hconsole : (motdWith (unlines (hostLines CELL))).outFile = none ∧
      (motdWith (unlines (hostLines CELL))).pipeWriting = false := by
    rw [motdWith, bootShell]
    exact ⟨rfl, rfl⟩
  obtain ⟨rfl, rfl⟩ := hp.unique (hout.trans hconsole.1) (hpipe.trans hconsole.2) hprint
  have heq := congrArg List.length (hiff.mp ⟨rfl, rfl⟩)
  rw [strings_hostLines, strings_hostLines, length_hostLines, length_hostLines] at heq
  exact absurd heq (by decide)

end BojanOS
