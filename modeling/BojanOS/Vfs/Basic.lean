import BojanOS.Kheap
import BojanOS.Lib.Arena

/-!
# The in-RAM filesystem (`vfs.c`)

A `vnode_t*` is the number of the node, in the order `make_node` handed them out, and `children`
is the live part `children[0 .. child_count)` of the array. File data is in the bytes of the heap,
at the offset `data`. A C string is the list of its bytes before the terminator; a string function
that stores past the array it was given is undefined behaviour, written `none`.
-/

namespace BojanOS

def VFS_NAME_MAX : Nat := 64

/-- `char buf[1024]` of `vfs_resolve_parent` and `vfs_update_pwd`. -/
def PATH_MAX : Nat := 1024

def SIZEOF_VNODE : Nat := 120
def SIZEOF_PTR : Nat := 8

inductive FsType where
  | file
  | dir
  deriving DecidableEq, Repr

structure Vnode where
  type : FsType
  name : List Char
  parent : Option Nat
  children : List Nat
  childCap : Nat
  data : Option Nat
  size : Nat
  cap : Nat

def Vnode.blank : Vnode := ⟨.file, [], none, [], 0, none, 0, 0⟩

/-- The fields `make_node` fills in. -/
def Vnode.fresh (type : FsType) (name : List Char) (parent : Option Nat) : Vnode :=
  { Vnode.blank with type, parent, name := name.take (VFS_NAME_MAX - 1) }

structure Vfs where
  ram : Ram
  node : Nat → Vnode
  /-- The number of nodes handed out. -/
  next : Nat
  root : Nat
  cwd : Nat
  pwd : List Char

/-! ## Strings (`string.c`) -/

/-- The loop of `strrchr`: the last position of `c`, counted from `i`. -/
def strrchrLoop (c : Char) : List Char → Nat → Option Nat → Option Nat
  | [], _, last => last
  | x :: s, i, last => strrchrLoop c s (i + 1) (if x = c then some i else last)

def strrchr (s : List Char) (c : Char) : Option Nat := strrchrLoop c s 0 none

/-- The loop of `vfs_basename`, with `b` the candidate so far. -/
def basenameLoop (b : List Char) : List Char → List Char
  | [] => b
  | x :: s => basenameLoop (if x = '/' then s else b) s

def vfsBasename (path : List Char) : List Char := basenameLoop path path

/-- The names `vfs_resolve` cuts a path into: the non-empty pieces between slashes, each copied
into `char name[VFS_NAME_MAX]` and so cut to 63 bytes. -/
def components (path : List Char) : List (List Char) :=
  ((path.splitOn '/').filter (· ≠ [])).map (List.take (VFS_NAME_MAX - 1))

namespace Vfs

def setNode (s : Vfs) (n : Nat) (v : Vnode) : Vfs := { s with node := Function.update s.node n v }

/-! ## Nodes -/

def makeNode (s : Vfs) (type : FsType) (name : List Char) (parent : Option Nat) :
    Option Nat × Vfs :=
  match s.ram.kzalloc SIZEOF_VNODE with
  | (none, ram) => (none, { s with ram })
  | (some _, ram) =>
    (some s.next, { s with
      ram, node := Function.update s.node s.next (.fresh type name parent), next := s.next + 1 })

def childOf (s : Vfs) (dir : Nat) (name : List Char) : Option Nat :=
  if (s.node dir).type ≠ .dir then none
  else (s.node dir).children.find? fun c => (s.node c).name = name

def addChild (s : Vfs) (dir child : Nat) : Bool × Vfs :=
  let v := s.node dir
  if v.childCap ≤ v.children.length then
    let newcap := if v.childCap ≠ 0 then v.childCap * 2 else 8
    match s.ram.kmalloc (newcap * SIZEOF_PTR) with
    | (none, ram) => (false, { s with ram })
    | (some _, ram) =>
      (true, { s with ram }.setNode dir
        { v with childCap := newcap, children := v.children ++ [child] })
  else (true, s.setNode dir { v with children := v.children ++ [child] })

/-! ## Paths -/

/-- One name of the path, looked up from the directory reached so far. -/
def walkStep (s : Vfs) (cur : Nat) (name : List Char) : Option Nat :=
  if name = ['.'] then some cur
  else if name = ['.', '.'] then some ((s.node cur).parent.getD cur)
  else if name = ['~'] then s.childOf s.root ['r', 'o', 'o', 't']
  else s.childOf cur name

def walk (s : Vfs) (cur : Nat) (names : List (List Char)) : Option Nat :=
  names.foldlM s.walkStep cur

def vfsResolve (s : Vfs) (path : List Char) : Option Nat :=
  s.walk (if path.head? = some '/' then s.root else s.cwd) (components path)

/-- The parent directory, and the string copied to `out_name`. -/
def vfsResolveParent (s : Vfs) (path : List Char) : Option Nat × List Char :=
  let buf := path.take (PATH_MAX - 1)
  match strrchr buf '/' with
  | none => (some s.cwd, buf)
  | some slash =>
    let name := buf.drop (slash + 1)
    (if slash = 0 then some s.root else s.vfsResolve (buf.take slash),
      if name = [] then ['/'] else name)

/-! ## File contents -/

/-- `while (nc < need) nc *= 2;` on a `size_t`, which doubles at most 64 times. -/
def growCap : Nat → Nat → Nat → Nat
  | 0, nc, _ => nc
  | k + 1, nc, need => if nc < need then growCap k (2 * nc % 2 ^ 64) need else nc

/-- The capacity the two functions ask for. -/
def newCap (v : Vnode) (need : Nat) : Nat := growCap 64 (if v.cap ≠ 0 then v.cap else 64) need

/-- The bytes after `if (n->data && n->size) memcpy(nd, n->data, n->size);`. -/
def moveData (v : Vnode) (nd : Nat) (mem : Nat → Char) : Nat → Char :=
  match v.data with
  | none => mem
  | some d => memcpy nd (.heap d) v.size 0 mem

/-- The first half of `vfs_write_file` and `vfs_append_file`: room for `need` bytes. The result is
`n->data`, null when `kmalloc` refused. -/
def growFile (s : Vfs) (n need : Nat) : Option Nat × Vfs :=
  let v := s.node n
  if v.cap < need then
    match s.ram.kmalloc (newCap v need) with
    | (none, ram) => (none, { s with ram })
    | (some nd, ram) =>
      (some nd, { s with ram := { ram with mem := moveData v nd ram.mem } }.setNode n
        { v with data := some nd, cap := newCap v need })
  else (v.data, s)

/-- The second half: copy to `data + off`, set the size, terminate. -/
def storeFile (s : Vfs) (n d off : Nat) (data : Src) (len : Nat) : Vfs :=
  let mem := memcpy (d + off) data len 0 s.ram.mem
  { s with ram := { s.ram with mem := Function.update mem (d + (off + len)) NUL } }.setNode n
    { s.node n with size := off + len }

def vfsWriteFile (s : Vfs) (n : Nat) (data : Src) (len : Nat) : Bool × Vfs :=
  if (s.node n).type ≠ .file then (false, s)
  else match s.growFile n (len + 1) with
    | (none, s) => (false, s)
    | (some d, s) => (true, s.storeFile n d 0 data len)

def vfsAppendFile (s : Vfs) (n : Nat) (data : Src) (len : Nat) : Bool × Vfs :=
  if (s.node n).type ≠ .file then (false, s)
  else match s.growFile n ((s.node n).size + len + 1) with
    | (none, s) => (false, s)
    | (some d, s) => (true, s.storeFile n d (s.node n).size data len)

def vfsTruncate (s : Vfs) (n : Nat) : Vfs :=
  if (s.node n).type ≠ .file then s
  else
    let mem := match (s.node n).data with
      | none => s.ram.mem
      | some d => Function.update s.ram.mem d NUL
    { s with ram := { s.ram with mem } }.setNode n { s.node n with size := 0 }

/-- The bytes `data[0 .. size)` of a node. -/
def contents (s : Vfs) (n : Nat) : List Char :=
  match (s.node n).data with
  | none => []
  | some d => Arena.segment s.ram.mem d (s.node n).size

/-! ## Creating and removing -/

/-- The common body of `vfs_mkfile` and `vfs_mkdir`. `strcpy(out_name, ..)` of a name that does not
fit `char name[VFS_NAME_MAX]` is the undefined case. -/
def vfsMknode (s : Vfs) (type : FsType) (path : List Char) : Option (Bool × Vfs) :=
  let (parent, name) := s.vfsResolveParent path
  if VFS_NAME_MAX ≤ name.length then none
  else match parent with
    | none => some (false, s)
    | some parent =>
      if (s.node parent).type ≠ .dir then some (false, s)
      else if name = [] ∨ (s.childOf parent name).isSome then some (false, s)
      else match s.makeNode type name (some parent) with
        | (none, s) => some (false, s)
        | (some n, s) => some (s.addChild parent n)

def vfsMkfile (s : Vfs) (path : List Char) : Option (Bool × Vfs) := s.vfsMknode .file path

def vfsMkdir (s : Vfs) (path : List Char) : Option (Bool × Vfs) := s.vfsMknode .dir path

/-- The shift loop of the source removes the first occurrence of `n`. -/
def vfsUnlinkNode (s : Vfs) (n : Nat) : Bool × Vfs :=
  if n = s.root then (false, s)
  else match (s.node n).parent with
    | none => (false, s)
    | some p =>
      if n ∈ (s.node p).children then
        (true, s.setNode p { s.node p with children := (s.node p).children.erase n })
      else (false, s)

def vfsRm (s : Vfs) (path : List Char) : Bool × Vfs :=
  match s.vfsResolve path with
  | none => (false, s)
  | some n =>
    if n = s.root ∨ (s.node n).parent = none then (false, s)
    else if (s.node n).type = .dir ∧ (s.node n).children ≠ [] then (false, s)
    else s.vfsUnlinkNode n

/-- The number of entries in the child arrays. -/
def links (s : Vfs) : Nat := ((List.range s.next).map fun n => (s.node n).children.length).sum

/-- `none` when the fuel is used up. The second recursive call is the next round of the `while`
loop over `children[child_count - 1]`. -/
def vfsRmRecursiveNode : Nat → Vfs → Nat → Option (Bool × Vfs)
  | 0, _, _ => none
  | k + 1, s, n =>
    if n = s.root then some (false, s)
    else match (s.node n).children.getLast? with
      | none => some (s.vfsUnlinkNode n)
      | some c =>
        match vfsRmRecursiveNode k s c with
        | none => none
        | some (false, s) => some (false, s)
        | some (true, s) => vfsRmRecursiveNode k s n

def vfsRmRecursive (s : Vfs) (path : List Char) : Option (Bool × Vfs) :=
  match s.vfsResolve path with
  | none => some (false, s)
  | some n => if n = s.root then some (false, s) else vfsRmRecursiveNode (s.links + s.next + 1) s n

/-! ## The working directory -/

/-- `names[0 .. depth)` of `vfs_update_pwd`, from the node upwards. -/
def climb (s : Vfs) : Nat → Nat → List (List Char)
  | 0, _ => []
  | k + 1, n =>
    if n = s.root then []
    else (s.node n).name :: match (s.node n).parent with
      | none => []
      | some p => climb s k p

/-- The text `strcat` assembles from the names, from the root downwards. -/
def pwdText (names : List (List Char)) : List Char := names.flatMap fun name => '/' :: name

/-- `none` when `strcat` runs past `char buf[1024]`. -/
def vfsUpdatePwd (s : Vfs) : Option Vfs :=
  if s.cwd = s.root then some { s with pwd := ['/'] }
  else
    let buf := pwdText (s.climb 64 s.cwd).reverse
    if PATH_MAX ≤ buf.length then none
    else some { s with pwd := if buf = [] then ['/'] else buf }

/-! ## The initial tree -/

/-- A null `parent` is dereferenced by `add_child`. -/
def mkdirSimple (s : Vfs) (parent : Option Nat) (name : List Char) : Option (Option Nat × Vfs) :=
  match s.makeNode .dir name parent with
  | (none, s) => some (none, s)
  | (some n, s) => parent.map fun parent => (some n, (s.addChild parent n).2)

def mkfileSimple (s : Vfs) (parent : Option Nat) (name content : List Char) :
    Option (Option Nat × Vfs) :=
  match s.makeNode .file name parent with
  | (none, s) => some (none, s)
  | (some n, s) => parent.map fun parent =>
    (some n, ((s.addChild parent n).2.vfsWriteFile n (.ext content) content.length).2)

def motdText : List Char :=
  "Welcome to BojanOS - a from-scratch ".toList ++ "64-bit operating system\n".toList

def hostnameText : List Char := "bojanos\n".toList

def osReleaseText : List Char :=
  "NAME=BojanOS\nVERSION=1.0\n".toList ++
  "ID=bojanos\nPRETTY_NAME=\"BojanOS 1.0\"\n".toList

def readmeText : List Char :=
  "BojanOS\n".toList ++
  "=======\n".toList ++
  "Everything you see was written from scratch for this OS:\n".toList ++
  " - 64-bit long mode kernel with paging, GDT, IDT, IRQs\n".toList ++
  " - PS/2 keyboard driver, PIT timer, CMOS RTC\n".toList ++
  " - in-RAM filesystem with directories and files\n".toList ++
  " - shell with pipes and redirections\n".toList ++
  "Type 'help' to list commands.\n".toList

/-- `none` when a null node is dereferenced, or left in `vfs_cwd`. -/
def vfsInit (ram : Ram) : Option Vfs := do
  let s : Vfs := { ram, node := fun _ => Vnode.blank, next := 0, root := 0, cwd := 0, pwd := [] }
  let (root, s) := s.makeNode .dir [] none
  let vfsRoot ← root
  let s := { s with root := vfsRoot, cwd := vfsRoot }.setNode vfsRoot
    { s.node vfsRoot with parent := some vfsRoot }
  let (_bin, s) ← s.mkdirSimple vfsRoot "bin".toList
  let (etc, s) ← s.mkdirSimple vfsRoot "etc".toList
  let (home, s) ← s.mkdirSimple vfsRoot "home".toList
  let (root, s) ← s.mkdirSimple vfsRoot "root".toList
  let (_tmp, s) ← s.mkdirSimple vfsRoot "tmp".toList
  let (usr, s) ← s.mkdirSimple vfsRoot "usr".toList
  let (_, s) ← s.mkdirSimple usr "bin".toList
  let (_, s) ← s.mkdirSimple home "user".toList
  let (_, s) ← s.mkfileSimple etc "motd".toList motdText
  let (_, s) ← s.mkfileSimple etc "hostname".toList hostnameText
  let (_, s) ← s.mkfileSimple etc "os-release".toList osReleaseText
  let (_, s) ← s.mkfileSimple root "readme.txt".toList readmeText
  let cwd ← root
  { s with cwd }.vfsUpdatePwd

end Vfs

/-- The state `vfs_init` leaves behind on a machine with `kb` KB of memory, the bytes of the heap
and the verdicts of the environment being arbitrary. -/
def Booted (s : Vfs) : Prop :=
  ∃ kb deny mem, Vfs.vfsInit { heap := Kheap.kheapInit kb, deny, mem } = some s

end BojanOS
