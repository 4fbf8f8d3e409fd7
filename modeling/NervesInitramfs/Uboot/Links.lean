import NervesInitramfs.CLib.LinkedList
import NervesInitramfs.Uboot.Env

/-!
# The environment as a linked list (`uboot_env.c`)

The functions that change the list of pairs, on the nodes and pointers that it consists of. A result
`none` stands for a pointer to no node, or for a loop that does not end in the given number of
steps; an address that `malloc` returns is a parameter.
-/

namespace NervesInitramfs

open CLib

variable {w : Nat}

/-- `struct uboot_env` with the pairs in memory. -/
structure LinkedEnv where
  envSize : Nat
  vars : Option Nat
  nodes : Nodes UbootNameValue

/-- The loop that looks for a name: the node in front (`prev`, if any), the address of the node that
has the name, and the node. -/
def findPair (nodes : Nodes UbootNameValue) (name : CString) : Nat → Option Nat → Option Nat →
    Option (Option (Option Nat × Nat × Node UbootNameValue))
  | _, _, none => some none
  | 0, _, some _ => none
  | steps + 1, prev, some a => do
    let node ← nodes a
    if strcmp node.data.name name = 0 then pure (some (prev, a, node))
    else findPair nodes name steps (some a) node.next

section

variable (steps : Nat)

def linkedSetenv (address : Nat) (env : LinkedEnv) (name value : CString) :
    Option (Int × LinkedEnv) := do
  match ← findPair env.nodes name steps none env.vars with
  | some (_, a, node) =>
    let nodes := env.nodes.put a { node with data := { node.data with value := value } }
    pure (0, { env with nodes := nodes })
  | none =>
    let nodes := env.nodes.put address ⟨⟨name, value⟩, env.vars⟩
    pure (0, { env with vars := some address, nodes := nodes })

def linkedUnsetenv (env : LinkedEnv) (name : CString) : Option (Int × LinkedEnv) := do
  match ← findPair env.nodes name steps none env.vars with
  | some (some prev, a, node) =>
    let nodes ← env.nodes.setNext prev node.next
    pure (0, { env with nodes := nodes.free a })
  | some (none, a, node) =>
    pure (0, { env with vars := node.next, nodes := env.nodes.free a })
  | none => pure (0, env)

/-- `uboot_env_getenv`, as the value that is found. -/
def linkedGetenv (env : LinkedEnv) (name : CString) : Option (Option CString) := do
  match ← findPair env.nodes name steps none env.vars with
  | some (_, _, node) => pure (some node.data.value)
  | none => pure none

/-- `env_name_compare` on pointers to pairs. -/
def linkCompare (a b : Nat × UbootNameValue) : Int := envNameCompare a.2 b.2

/-- `uboot_env_sort`: the pointers are put into an array, sorted and linked again. -/
def linkedSort (qsort : Qsort linkCompare) (env : LinkedEnv) : Option LinkedEnv := do
  let pairarray ← walk env.nodes steps env.vars
  if pairarray.length = 0 then pure env
  else
    let pairarray := qsort.sort pairarray
    let nodes ← env.nodes.relink (pairarray.map (·.1))
    pure { env with vars := pairarray.head?.map (·.1), nodes := nodes }

def linkedWrite (qsort : Qsort linkCompare) (env : LinkedEnv) (buffer : Buffer w) :
    Option (Int × LinkedEnv × Buffer w) :=
  if env.envSize < 8 then some (-1, env, buffer) else do
    let buffer ← buffer.memset 0xff env.envSize
    let env ← linkedSort steps qsort env
    let pairs ← walk env.nodes steps env.vars
    let (rc, p, buffer) ← writeEntries (env.envSize - 2) (pairs.map (·.2)) 4 buffer
    if rc < 0 then return (-1, env, buffer)
    let buffer ← buffer.store p 0
    let crc := crc32buf ((buffer.bytes.take env.envSize).drop 4)
    let buffer ← buffer.memcpy 0 (crcBytes crc)
    return (0, env, buffer)

end

/-- The list in memory is well formed and holds these pairs at these addresses. -/
abbrev LinkedEnv.Holds (env : LinkedEnv) (l : List (Nat × UbootNameValue)) : Prop :=
  Linked env.nodes env.vars l

/-- What the list in memory stands for. -/
def LinkedEnv.abstract (env : LinkedEnv) (l : List (Nat × UbootNameValue)) : UbootEnv :=
  ⟨env.envSize, l.map Prod.snd⟩

end NervesInitramfs
