/-
# SlateOS.Cap.Groups -- named capability groups

The group table of `kernel/src/cap/groups.rs`: 32 slots, each with a name, an array of grants, an
array of member gids, and a count beside either array. A group's slot is reused after its removal.
The functions that look a group up by its id and change it in place (`remove`, `add_cap`,
`add_member`, `remove_member`) are one loop, `onGroup`, applied to what each of them does to the
group it finds.
-/
import Mathlib.Data.Fin.Tuple.Basic
import SlateOS.Cap.Rights
import SlateOS.Foundation.MachineInt
import SlateOS.Kernel.Error

namespace SlateOS.Cap.Groups

open Foundation.MachineInt Kernel

/-- `MAX_GROUPS`. -/
def maxGroups : Nat := 32

/-- `MAX_CAPS_PER_GROUP`. -/
def maxCapsPerGroup : Nat := ResourceType.last + 8

/-- `MAX_MEMBERS_PER_GROUP`. -/
def maxMembersPerGroup : Nat := 16

/-- `MAX_NAME_LEN`, in bytes. -/
def maxNameLen : Nat := 31

/-- `CapGrant`. -/
structure CapGrant where
  resourceType : ResourceType
  rights : Rights
  deriving DecidableEq

/-- `CapGroup`; `name` is the filled part of the name buffer. -/
structure CapGroup where
  active : Bool
  builtin : Bool
  id : Nat
  name : String
  caps : Vector (Option CapGrant) maxCapsPerGroup
  capCount : Nat
  memberGids : Vector Nat maxMembersPerGroup
  memberCount : Nat
  deriving DecidableEq

namespace CapGroup

/-- `CapGroup::empty`. -/
def empty : CapGroup where
  active := false
  builtin := false
  id := 0
  name := ""
  caps := .replicate maxCapsPerGroup none
  capCount := 0
  memberGids := .replicate maxMembersPerGroup 0
  memberCount := 0

/-- `member_gids[..member_count]`. -/
def members (g : CapGroup) : List Nat := g.memberGids.toList.take g.memberCount

/-- What `remove` does to the group. -/
def retire (g : CapGroup) : KernelResult Unit × CapGroup :=
  if g.builtin then (.error .permissionDenied, g)
  else (.ok (), { g with active := false })

/-- What `add_cap` does to the group: the first empty slot takes the grant. -/
def addGrant (grant : CapGrant) (g : CapGroup) : KernelResult Unit × CapGroup :=
  if g.capCount ≥ maxCapsPerGroup then (.error .outOfMemory, g)
  else
    match Fin.find? fun i : Fin maxCapsPerGroup => g.caps[i].isNone with
    | some i =>
      (.ok (), { g with
        caps := g.caps.set i (some grant)
        capCount := saturatingAdd 64 g.capCount 1 })
    | none => (.error .outOfMemory, g)

/-- What `add_member` does to the group. -/
def addGid (gid : Nat) (g : CapGroup) : KernelResult Unit × CapGroup :=
  if g.members.contains gid then (.ok (), g)
  else if h : g.memberCount ≥ maxMembersPerGroup then (.error .outOfMemory, g)
  else
    (.ok (), { g with
      memberGids := g.memberGids.set g.memberCount gid (Nat.lt_of_not_le h)
      memberCount := saturatingAdd 64 g.memberCount 1 })

/-- What `remove_member` does to the group: the last member takes the place of the one removed. -/
def removeGid (gid : Nat) (g : CapGroup) : KernelResult Unit × CapGroup :=
  match Fin.find? fun i : Fin maxMembersPerGroup =>
      decide (i.val < g.memberCount) && g.memberGids[i] == gid with
  | some i =>
    let last := g.memberCount - 1
    (.ok (), { g with
      memberGids := g.memberGids.set i (g.memberGids.getD last 0)
      memberCount := last })
  | none => (.ok (), g)

end CapGroup

/-- `GROUPS` and `NEXT_ID`. -/
structure GroupTable where
  groups : Vector CapGroup maxGroups
  nextId : Nat
  deriving DecidableEq

namespace GroupTable

/-- The group in a slot. -/
abbrev group (t : GroupTable) (i : Fin maxGroups) : CapGroup := t.groups[i]

/-- The table before `init`. -/
def empty : GroupTable := ⟨.replicate maxGroups .empty, 100⟩

/-- The first slot that is not active. -/
def freeSlot (t : GroupTable) : Option (Fin maxGroups) :=
  Fin.find? fun i : Fin maxGroups => !t.groups[i].active

/-- The first active group with the id. -/
def slotOf (t : GroupTable) (groupId : Nat) : Option (Fin maxGroups) :=
  Fin.find? fun i : Fin maxGroups => t.groups[i].active && t.groups[i].id == groupId

/-- An active group has the name. -/
def nameTaken (t : GroupTable) (name : String) : Bool :=
  t.groups.any fun g => g.active && g.name == name

/-! ## Built-in groups -/

/-- The arguments of one `install_builtin` call. -/
structure Builtin where
  id : Nat
  name : String
  grants : List CapGrant
  memberGid : Nat

/-- `install_builtin`. -/
def installBuiltin (t : GroupTable) (b : Builtin) : KernelResult Unit × GroupTable :=
  if b.grants.length > maxCapsPerGroup then (.error .invalidArgument, t)
  else if b.name.utf8ByteSize > maxNameLen then (.error .invalidArgument, t)
  else
    match t.freeSlot with
    | none => (.error .outOfMemory, t)
    | some i =>
      let g := t.groups[i]
      (.ok (), { t with groups := t.groups.set i { g with
        active := true
        builtin := true
        id := b.id
        name := b.name
        capCount := b.grants.length
        -- The `zip` writes the first `grants.len()` slots and leaves the others.
        caps := .ofFn fun j => if h : j.val < b.grants.length then some b.grants[j.val] else g.caps[j]
        memberGids := g.memberGids.set 0 b.memberGid (by decide)
        memberCount := 1 } })

/-- The grant of the same rights on each of the resource types. -/
def grantsOn (rights : Rights) (types : List ResourceType) : List CapGrant :=
  types.map fun resourceType => ⟨resourceType, rights⟩

/-- The resource types `admin` is granted. -/
def adminGrants : List ResourceType :=
  [.channel, .pipe, .sharedMemory, .eventFd, .completionPort, .process, .thread, .portIo, .deviceIrq,
    .file, .socket, .timer, .ioScheduler, .service, .nameSpace, .streamSocket, .epoll, .signalFd,
    .timerfd, .inotify, .alsaPcm, .drm, .netRaw, .netSocket, .pty, .systemClock, .privilegedPort,
    .resourceLimit, .inputDevice, .blockDevice, .semaphore, .unixSocket, .nativeSocket, .capBroker,
    .pciDevice, .fileTree]

/-- `READ | WRITE`. -/
def readWrite : Rights := Rights.read.union .write

/-- The groups `init` installs, in order. -/
def builtins : List Builtin :=
  [⟨1, "admin", grantsOn .all adminGrants, 0⟩,
    ⟨2, "network", grantsOn readWrite [.socket], 0⟩,
    ⟨3, "filesystem",
      grantsOn (((readWrite.union .create).union .delete).union .metadata) [.file], 0⟩,
    ⟨4, "driver", grantsOn readWrite [.portIo, .deviceIrq], 0⟩,
    ⟨5, "process", grantsOn (readWrite.union .create) [.process, .thread], 0⟩,
    ⟨6, "ipc", grantsOn (readWrite.union .create)
      [.channel, .pipe, .sharedMemory, .eventFd, .completionPort], 0⟩]

/-! ## The public functions -/

/-- `create`. The slot's count of grants is reset, its grants are not. -/
def create (t : GroupTable) (name : String) : KernelResult Nat × GroupTable :=
  if name.isEmpty || name.utf8ByteSize > maxNameLen then (.error .invalidArgument, t)
  else if t.nameTaken name then (.error .alreadyExists, t)
  else
    match t.freeSlot with
    | none => (.error .outOfMemory, t)
    | some i =>
      (.ok t.nextId,
        { groups := t.groups.set i { t.groups[i] with
            active := true, builtin := false, id := t.nextId, name, capCount := 0, memberCount := 0 }
          nextId := saturatingAdd 32 t.nextId 1 })

/-- The loop that finds the group with the id and changes it by `f`. -/
def onGroup (t : GroupTable) (groupId : Nat) (f : CapGroup → KernelResult Unit × CapGroup) :
    KernelResult Unit × GroupTable :=
  match t.slotOf groupId with
  | none => (.error .invalidHandle, t)
  | some i => ((f t.groups[i]).1, { t with groups := t.groups.set i (f t.groups[i]).2 })

/-- `remove`. -/
def remove (t : GroupTable) (groupId : Nat) : KernelResult Unit × GroupTable :=
  t.onGroup groupId CapGroup.retire

/-- `add_cap`. -/
def addCap (t : GroupTable) (groupId : Nat) (grant : CapGrant) : KernelResult Unit × GroupTable :=
  t.onGroup groupId (CapGroup.addGrant grant)

/-- `add_member`. -/
def addMember (t : GroupTable) (groupId gid : Nat) : KernelResult Unit × GroupTable :=
  t.onGroup groupId (CapGroup.addGid gid)

/-- `remove_member`. -/
def removeMember (t : GroupTable) (groupId gid : Nat) : KernelResult Unit × GroupTable :=
  t.onGroup groupId (CapGroup.removeGid gid)

/-- `check_access`. -/
def checkAccess (t : GroupTable) (uid primaryGid : Nat) (supplementaryGids : List Nat)
    (resourceType : ResourceType) (requiredRights : Rights) : Bool :=
  uid == 0 || t.groups.any fun g =>
    g.active &&
      (g.members.any fun gid => gid == primaryGid || supplementaryGids.contains gid) &&
      g.caps.any fun cap => cap.any fun cap =>
        cap.resourceType == resourceType && cap.rights.contains requiredRights

end GroupTable

end SlateOS.Cap.Groups
