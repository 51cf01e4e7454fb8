import Mathlib.Logic.Function.Basic

/-! `ShelfFile` (`shelf_mgmt/shelf_file.cc`): the file behind a shelf, and the calls that
create, size, open, rename, map and remove it.

The file system is shared with other processes. One system call is atomic; before each one the
other processes may change the file system in any way, and each may fail for a reason the
model does not track (`EACCES`, `EMFILE`, `EIO`, ...). Both are inputs, a `Sched`. The failures
the file system decides itself (`ENOENT` on an absent path) are computed. A descriptor refers
to a file, not to a path, so `ftruncate` and `mmap` reach the file even after its path has been
renamed or unlinked.

Under every interleaving: `Create` reports an existing file only from its own `Exist()` check,
since `creat` has no `O_EXCL` and never fails with `EEXIST` (`create_found_only_by_check`); so
`Create` is not exclusive, and a file another process makes between the check and the `creat`
is emptied and resized while `Create` returns `NO_ERROR` (`create_truncates_raced_file`). A
`Destroy` that returns has removed the path (`destroy_removes_path`).

When no other process acts: a successful `Create` made the file, and leaves the `ShelfFile`
open when its own `Close` failed (`create_succeeded`); a failed call changes nothing, except a
`Create` that fails after `creat`, a `Map` that fails after `mmap`, and an `Unmap` whose
`munmap` fails after it unregistered the region (`failed_call_changes_nothing`).

`Map(addr_hint, mapped_addr)` and `Unmap(mapped_addr, unregister)`, which keep the shelf's
mapping in the `ShelfManager` registry, are not modelled: that registry's code is not among
the sources.
-/
namespace Gull.ShelfMgmt.ShelfFile

/-- Modelled from the spec: the codes `ShelfFile` returns, from `nvmm/error_code.h`. -/
inductive ErrorCode where
  | noError
  | shelfFileFound
  | shelfFileNotFound
  | shelfFileOpened
  | shelfFileClosed
  | shelfFileCreateFailed
  | shelfFileTruncateFailed
  | shelfFileOpenFailed
  | shelfFileCloseFailed
  | shelfFileRenameFailed
  | shelfFileMapFailed
  | shelfFileUnmapFailed
  | shelfFileFamAtomicRegisterRegionFailed
  deriving DecidableEq

/-- The values of `errno` the code tests, and the others. -/
inductive Errno where
  | enoent
  | eexist
  | other
  deriving DecidableEq

/-- A file's bytes, truncated or extended to `length`; the bytes it gains are zero. -/
def resize (bytes : List UInt8) (length : Nat) : List UInt8 :=
  bytes.take length ++ List.replicate (length - bytes.length) 0

/-! ## The file system -/

/-- The file each path names, and each file's bytes. Files are numbered in the order they were
made. -/
structure Fs where
  entries : String → Option Nat
  data : Nat → List UInt8
  /-- The number the next new file gets. -/
  fresh : Nat

namespace Fs

/-- `boost::filesystem::exists`. -/
def present (fs : Fs) (path : String) : Bool := (fs.entries path).isSome

/-- The file system with a new empty file at `path`. -/
def make (fs : Fs) (path : String) : Fs where
  entries := Function.update fs.entries path (some fs.fresh)
  data := Function.update fs.data fs.fresh []
  fresh := fs.fresh + 1

/-- `file` truncated or extended to `length` bytes. -/
def setLength (fs : Fs) (file length : Nat) : Fs :=
  { fs with data := Function.update fs.data file (resize (fs.data file) length) }

/-- `creat(path, mode)`, which is `open` with `O_CREAT | O_WRONLY | O_TRUNC`: a new empty file
when the path is absent, and otherwise the file it names, truncated to length `0`. Without
`O_EXCL` it never fails with `EEXIST`. -/
def creat (fs : Fs) (path : String) (fault : Bool) : Except Errno (Fs × Nat) :=
  if fault then .error .other
  else
    match fs.entries path with
    | some file => .ok (fs.setLength file 0, file)
    | none => .ok (fs.make path, fs.fresh)

/-- `truncate(path, length)`. -/
def truncate (fs : Fs) (path : String) (length : Nat) (fault : Bool) : Except Errno Fs :=
  match fs.entries path with
  | none => .error .enoent
  | some file => if fault then .error .other else .ok (fs.setLength file length)

/-- `ftruncate(fd, length)`, on a descriptor open on `file`. -/
def ftruncate (fs : Fs) (file length : Nat) (fault : Bool) : Except Errno Fs :=
  if fault then .error .other else .ok (fs.setLength file length)

/-- `open(path, flags)`: a descriptor on the file the path names. -/
def «open» (fs : Fs) (path : String) (fault : Bool) : Except Errno Nat :=
  match fs.entries path with
  | none => .error .enoent
  | some file => if fault then .error .other else .ok file

/-- `rename(old, new)`: `new` names the file `old` named, in place of what it named. -/
def rename (fs : Fs) (old new : String) (fault : Bool) : Except Errno Fs :=
  match fs.entries old with
  | none => .error .enoent
  | some file =>
    if fault then .error .other
    else if old = new then .ok fs
    else .ok { fs with entries := Function.update (Function.update fs.entries new (some file)) old none }

/-- `unlink(path)`, what `boost::filesystem::remove` calls on a file. -/
def unlink (fs : Fs) (path : String) (fault : Bool) : Except Errno Fs :=
  match fs.entries path with
  | none => .error .enoent
  | some _ => if fault then .error .other else .ok { fs with entries := Function.update fs.entries path none }

private theorem unlink_ok {fs fs' : Fs} {path : String} {fault : Bool} (unlinked : fs.unlink path fault = .ok fs') :
    fs'.entries path = none := by
  unfold unlink at unlinked
  split at unlinked
  · cases unlinked
  · split_ifs at unlinked
    cases unlinked
    simp

private theorem unlink_enoent {fs : Fs} {path : String} {fault : Bool}
    (failed : fs.unlink path fault = .error .enoent) : fs.entries path = none := by
  unfold unlink at failed
  split at failed
  · assumption
  · split_ifs at failed
    cases failed

end Fs

/-! ## The process and its `ShelfFile` -/

/-- What happens around the `k`-th system call of a call: what the other processes do to the
file system just before it, and whether it fails for a reason outside the model. -/
structure Sched where
  others : Nat → Fs → Fs
  faults : Nat → Bool

/-- The schedule a call made from the `k`-th system call of another sees. -/
def Sched.shift (σ : Sched) (k : Nat) : Sched := ⟨fun i => σ.others (i + k), fun i => σ.faults (i + k)⟩

/-- No other process acts. -/
def Sched.Alone (σ : Sched) : Prop := ∀ k fs, σ.others k fs = fs

/-- No other process acts and no call fails. -/
def Sched.clean : Sched := ⟨fun _ fs => fs, fun _ => false⟩

/-- No file at all. -/
def Fs.empty : Fs := ⟨fun _ => none, fun _ => [], 0⟩

/-- A mapping the process holds: its address, its length and the file it maps. -/
structure Mapping where
  addr : Nat
  length : Nat
  file : Nat
  deriving DecidableEq

/-- A process with one `ShelfFile`. -/
structure State where
  fs : Fs
  /-- `fd_`: the file its descriptor is open on, or `none` for `-1`. -/
  fd : Option Nat
  /-- `path_`. -/
  path : String
  /-- The mappings the process holds. -/
  maps : List Mapping
  /-- The addresses of the regions `fam_atomic_register_region` registered and
  `fam_atomic_unregister_region` has not dropped. -/
  regions : List Nat

/-- `IsOpen()`: `fd_` is not `-1`. (`shelf_mgmt/shelf_file.h`, which defines it, is not among
the sources; the constructors' `fd_{-1}` and `Close`'s `fd_ = -1` are what closed means.) -/
def State.isOpen (s : State) : Bool := s.fd.isSome

/-- `Exist()`. -/
def State.exist (s : State) : Bool := s.fs.present s.path

/-- A process whose closed `ShelfFile` names `"shelf"`, on a file system with no file. -/
def unopened : State := ⟨Fs.empty, none, "shelf", [], []⟩

/-- The same process once an empty file is at `"shelf"`. -/
def created : State := { unopened with fs := Fs.empty.make "shelf" }

/-- The state the `k`-th system call of a call sees. -/
def State.interfere (s : State) (σ : Sched) (k : Nat) : State := { s with fs := σ.others k s.fs }

@[simp] theorem State.interfere_of_alone {σ : Sched} (alone : σ.Alone) (s : State) (k : Nat) :
    s.interfere σ k = s := by
  simp [State.interfere, alone k]

/-! ## The calls -/

/-- `ShelfFile::Truncate(length)`: `truncate` on the path when closed, `ftruncate` on `fd_`
when open. -/
def truncate (σ : Sched) (length : Nat) (s : State) : ErrorCode × State :=
  let s := s.interfere σ 0
  let ret := match s.fd with
    | none => s.fs.truncate s.path length (σ.faults 0)
    | some file => s.fs.ftruncate file length (σ.faults 0)
  match ret with
  | .ok fs => (.noError, { s with fs := fs })
  | .error errno => (if errno = .enoent then .shelfFileNotFound else .shelfFileTruncateFailed, s)

/-- `ShelfFile::Close()`. -/
def close (σ : Sched) (s : State) : ErrorCode × State :=
  if !s.isOpen then (.shelfFileClosed, s)
  else if σ.faults 0 then (.shelfFileCloseFailed, s)
  else (.noError, { s with fd := none })

/-- `ShelfFile::Create(mode, size)`. The result of its own `Close` is dropped. The permission
bits `mode` are not modelled. -/
def create (σ : Sched) (size : Nat) (s : State) : ErrorCode × State :=
  let s := s.interfere σ 0
  if s.exist then (.shelfFileFound, s)
  else if s.isOpen then (.shelfFileOpened, s)
  else
    let s := s.interfere σ 1
    match s.fs.creat s.path (σ.faults 1) with
    | .ok (fs, file) =>
      let s := { s with fs := fs, fd := some file }
      let truncated := if 0 < size then truncate (σ.shift 2) size s else (.noError, s)
      (truncated.1, (close (σ.shift 3) truncated.2).2)
    | .error errno => (if errno = .eexist then .shelfFileFound else .shelfFileCreateFailed, s)

/-- `ShelfFile::Destroy()`. `boost::filesystem::remove` looks the path up and then unlinks it;
a file that vanishes in between makes it throw with `ENOENT` (code `2`), which `Destroy`
swallows. Any other failure is thrown on to the caller, the `error` result. -/
def destroy (σ : Sched) (s : State) : Except Errno (ErrorCode × State) :=
  let s := s.interfere σ 0
  let ret := if s.exist then ErrorCode.noError else .shelfFileNotFound
  if s.isOpen then .ok (.shelfFileOpened, s)
  else
    let s := s.interfere σ 1
    if s.exist then
      let s := s.interfere σ 2
      match s.fs.unlink s.path (σ.faults 2) with
      | .ok fs => .ok (ret, { s with fs := fs })
      | .error errno => if errno = .enoent then .ok (ret, s) else .error errno
    else .ok (ret, s)

/-- `ShelfFile::Open(flags)`. The access mode `flags` is not modelled. -/
def «open» (σ : Sched) (s : State) : ErrorCode × State :=
  if s.isOpen then (.shelfFileOpened, s)
  else
    let s := s.interfere σ 0
    if !s.exist then (.shelfFileNotFound, s)
    else
      let s := s.interfere σ 1
      match s.fs.open s.path (σ.faults 1) with
      | .ok file => (.noError, { s with fd := some file })
      | .error errno => (if errno = .enoent then .shelfFileNotFound else .shelfFileOpenFailed, s)

/-- `ShelfFile::Rename(new_pathname)`. -/
def rename (σ : Sched) (newPath : String) (s : State) : ErrorCode × State :=
  let s := s.interfere σ 0
  match s.fs.rename s.path newPath (σ.faults 0) with
  | .ok fs => (.noError, { s with fs := fs, path := newPath })
  | .error _ => (.shelfFileRenameFailed, s)

/-- `ShelfFile::Size()`: the length of the file the path names when closed
(`boost::filesystem::file_size`, which throws when the path is absent), and otherwise of the
file `fd_` is open on (`fstat`, with `(size_t)-1` when it fails). -/
def size (σ : Sched) (s : State) : Except Errno Nat :=
  let s := s.interfere σ 0
  match s.fd with
  | none =>
    match s.fs.entries s.path with
    | some file => .ok (s.fs.data file).length
    | none => .error .enoent
  | some file => if σ.faults 0 then .ok 18446744073709551615 else .ok (s.fs.data file).length

/-- `ShelfFile::Map(addr_hint, length, prot, flags, offset, mapped_addr, register_fam_atomic)`:
`mmap` on `fd_`, which places the mapping at `placed`, then `fam_atomic_register_region` when
asked. The result is the code and `*mapped_addr` when it was written. The hint, protection,
flags and offset are not modelled. -/
def map (σ : Sched) (placed length : Nat) (registerFamAtomic : Bool) (s : State) :
    ErrorCode × Option Nat × State :=
  match s.fd with
  | none => (.shelfFileClosed, none, s)
  | some file =>
    if σ.faults 0 then (.shelfFileMapFailed, none, s)
    else
      let s := { s with maps := s.maps ++ [⟨placed, length, file⟩] }
      if registerFamAtomic then
        if σ.faults 1 then (.shelfFileFamAtomicRegisterRegionFailed, some placed, s)
        else (.noError, some placed, { s with regions := s.regions ++ [placed] })
      else (.noError, some placed, s)

/-- `ShelfFile::Unmap(mapped_addr, length, unregister_fam_atomic)`: when asked,
`fam_atomic_unregister_region` drops the registration at `mapped_addr` (its result is not
checked); then `munmap` drops the mapping there. -/
def unmap (σ : Sched) (mappedAddr : Nat) (unregisterFamAtomic : Bool) (s : State) :
    ErrorCode × State :=
  let s := if unregisterFamAtomic then { s with regions := s.regions.filter fun r => r != mappedAddr }
    else s
  if σ.faults 0 then (.shelfFileUnmapFailed, s)
  else (.noError, { s with maps := s.maps.filter fun m => m.addr != mappedAddr })

/-- A call of the process on its `ShelfFile`. -/
inductive Call where
  | create (size : Nat)
  | truncate (length : Nat)
  | «open»
  | close
  | destroy
  | rename (newPath : String)
  | map (placed length : Nat) (registerFamAtomic : Bool)
  | unmap (mappedAddr : Nat) (unregisterFamAtomic : Bool)

/-- What a call returns, and the state after it; `error` is an exception it throws. -/
def Call.run (σ : Sched) (s : State) : Call → Except Errno (ErrorCode × State)
  | .create size => .ok (ShelfFile.create σ size s)
  | .truncate length => .ok (ShelfFile.truncate σ length s)
  | .open => .ok (ShelfFile.open σ s)
  | .close => .ok (ShelfFile.close σ s)
  | .destroy => ShelfFile.destroy σ s
  | .rename newPath => .ok (ShelfFile.rename σ newPath s)
  | .map placed length registerFamAtomic =>
    let (ret, _, s) := ShelfFile.map σ placed length registerFamAtomic s
    .ok (ret, s)
  | .unmap mappedAddr unregisterFamAtomic => .ok (ShelfFile.unmap σ mappedAddr unregisterFamAtomic s)

/-! ## What each call does -/

@[simp] theorem Fs.present_eq_false {fs : Fs} {path : String} :
    fs.present path = false ↔ fs.entries path = none := by
  simp [Fs.present]

private theorem Fs.creat_of_absent {fs : Fs} {path : String} (absent : fs.entries path = none)
    (fault : Bool) :
    fs.creat path fault = if fault then .error .other else .ok (fs.make path, fs.fresh) := by
  simp [Fs.creat, absent]

/-- `Create` when no other process acts. -/
theorem create_of_alone {σ : Sched} (alone : σ.Alone) (size : Nat) (s : State) :
    create σ size s =
      if s.exist then (.shelfFileFound, s)
      else if s.isOpen then (.shelfFileOpened, s)
      else if σ.faults 1 then (.shelfFileCreateFailed, s)
      else if 0 < size ∧ σ.faults 2 then
        (.shelfFileTruncateFailed,
          { s with fs := s.fs.make s.path, fd := if σ.faults 3 then some s.fs.fresh else none })
      else
        (.noError, { s with fs := (s.fs.make s.path).setLength s.fs.fresh size,
                            fd := if σ.faults 3 then some s.fs.fresh else none }) := by
  unfold create
  simp only [State.interfere_of_alone alone]
  by_cases present : s.exist = true
  · simp [present]
  by_cases opened : s.isOpen = true
  · simp [present, opened]
  have absent : s.fs.entries s.path = none := by simpa [State.exist] using present
  simp only [present, opened, Bool.false_eq_true, if_false, Fs.creat_of_absent absent]
  have quiet : ∀ k fs, σ.others k fs = fs := alone
  cases σ.faults 1
  · by_cases pos : 0 < size
    · cases fault2 : σ.faults 2 <;> cases fault3 : σ.faults 3 <;>
        simp [pos, truncate, close, State.interfere, State.isOpen, Fs.ftruncate, Sched.shift, quiet,
          fault2, fault3]
    · have zero : size = 0 := by omega
      subst zero
      cases fault3 : σ.faults 3 <;>
        simp [close, State.isOpen, Sched.shift, Fs.setLength, Fs.make, resize, fault3]
  · simp

/-- What `Create` can do when no other process acts: stop at a check or at `creat` and change
nothing, or make the file and then fail at `ftruncate` or succeed. -/
theorem create_cases {σ : Sched} (alone : σ.Alone) {size : Nat} {s s' : State} {e : ErrorCode}
    (created : create σ size s = (e, s')) :
    (s' = s ∧ e ≠ .noError ∧ e ≠ .shelfFileTruncateFailed) ∨
    (s.exist = false ∧ s.fd = none ∧
      (e = .shelfFileTruncateFailed ∧
          s' = { s with fs := s.fs.make s.path, fd := if σ.faults 3 then some s.fs.fresh else none } ∨
        e = .noError ∧
          s' = { s with fs := (s.fs.make s.path).setLength s.fs.fresh size,
                        fd := if σ.faults 3 then some s.fs.fresh else none })) := by
  rw [create_of_alone alone] at created
  by_cases present : s.exist = true
  · rw [if_pos present] at created
    obtain ⟨rfl, rfl⟩ := Prod.mk.inj created
    exact .inl ⟨rfl, by decide, by decide⟩
  rw [if_neg present] at created
  by_cases opened : s.isOpen = true
  · rw [if_pos opened] at created
    obtain ⟨rfl, rfl⟩ := Prod.mk.inj created
    exact .inl ⟨rfl, by decide, by decide⟩
  rw [if_neg opened] at created
  by_cases fault1 : σ.faults 1 = true
  · rw [if_pos fault1] at created
    obtain ⟨rfl, rfl⟩ := Prod.mk.inj created
    exact .inl ⟨rfl, by decide, by decide⟩
  rw [if_neg fault1] at created
  refine .inr ⟨by simpa using present, by simpa [State.isOpen] using opened, ?_⟩
  by_cases failing : 0 < size ∧ σ.faults 2 = true
  · rw [if_pos failing] at created
    obtain ⟨rfl, rfl⟩ := Prod.mk.inj created
    exact .inl ⟨rfl, rfl⟩
  · rw [if_neg failing] at created
    obtain ⟨rfl, rfl⟩ := Prod.mk.inj created
    exact .inr ⟨rfl, rfl⟩

/-- **What a successful `Create` leaves.** When no other process acts, a `Create` that returns
`NO_ERROR` found the path absent and the `ShelfFile` closed, and made a new file of `size` zero
bytes at the path; the `ShelfFile` stays open on it when its own `Close` failed, which `Create`
does not report. -/
theorem create_succeeded {σ : Sched} (alone : σ.Alone) {size : Nat} {s s' : State}
    (created : create σ size s = (.noError, s')) :
    s.exist = false ∧ s.fd = none ∧
      s' = { s with fs := (s.fs.make s.path).setLength s.fs.fresh size,
                    fd := if σ.faults 3 then some s.fs.fresh else none } := by
  rcases create_cases alone created with ⟨-, failed, -⟩ | ⟨absent, closed, ⟨failed, -⟩ | ⟨-, rfl⟩⟩
  · exact absurd rfl failed
  · cases failed
  · exact ⟨absent, closed, rfl⟩

private theorem Fs.creat_error {fs : Fs} {path : String} {fault : Bool} {errno : Errno}
    (failed : fs.creat path fault = .error errno) : errno = .other := by
  unfold Fs.creat at failed
  split_ifs at failed
  · exact (Except.error.inj failed).symm
  · split at failed <;> cases failed

private theorem truncate_ne_found (σ : Sched) (length : Nat) (s : State) :
    (truncate σ length s).1 ≠ .shelfFileFound := by
  unfold truncate
  dsimp only
  split
  · simp
  · split_ifs <;> simp

/-- **`Create` reports an existing file only from its own check.** Under every interleaving,
`Create` returns `SHELF_FILE_FOUND` only when its `Exist()` saw the path: `creat` without
`O_EXCL` never fails with `EEXIST`, so the branch that tests for it is never taken. -/
theorem create_found_only_by_check {σ : Sched} {size : Nat} {s : State}
    (found : (create σ size s).1 = .shelfFileFound) : (s.interfere σ 0).exist = true := by
  unfold create at found
  dsimp only at found
  by_cases present : (s.interfere σ 0).exist = true
  · exact present
  by_cases opened : (s.interfere σ 0).isOpen = true
  · simp [present, opened] at found
  rw [if_neg present, if_neg opened] at found
  split at found
  · split_ifs at found
    exact absurd found (truncate_ne_found _ _ _)
  · rename_i errno created
    simp [Fs.creat_error created] at found

/-- **`Create` is not exclusive.** If another process makes the path name a file between the
`Exist()` check of `Create` and its `creat`, and no call fails, `Create` returns `NO_ERROR`
having emptied that file and extended it to `size` zero bytes: what the other process wrote
there is lost, and both go on as if each had made the file. -/
theorem create_truncates_raced_file {σ : Sched} {size file : Nat} {s : State}
    (closed : s.fd = none) (absent : (s.interfere σ 0).exist = false)
    (raced : (σ.others 1 (σ.others 0 s.fs)).entries s.path = some file)
    (faultless : ∀ k, σ.faults k = false) (after : ∀ k fs, 2 ≤ k → σ.others k fs = fs) :
    create σ size s =
      (.noError, { s with fs := { σ.others 1 (σ.others 0 s.fs) with
        data := Function.update (σ.others 1 (σ.others 0 s.fs)).data file (List.replicate size 0) } }) := by
  have absent : (σ.others 0 s.fs).entries s.path = none := by
    simpa [State.interfere, State.exist] using absent
  by_cases pos : 0 < size
  · simp [create, State.exist, Fs.present, absent, State.isOpen, closed, State.interfere, Fs.creat,
      faultless, raced, pos, truncate, Fs.ftruncate, Sched.shift, after, close, Fs.setLength, resize]
  · have zero : size = 0 := by omega
    subst zero
    simp [create, State.exist, Fs.present, absent, State.isOpen, closed, State.interfere, Fs.creat,
      faultless, raced, Sched.shift, close, Fs.setLength, resize]

/-- Another process creates `"shelf"` with two bytes just before the `creat` of `Create`. -/
def raced : Sched where
  others k fs := if k = 1 then (create Sched.clean 2 { unopened with fs := fs }).2.fs else fs
  faults _ := false

/-- Both `Create`s return `NO_ERROR`, and the two bytes the other process's file was given are
replaced by the sixty-four of this one. -/
example :
    (create Sched.clean 2 unopened).1 = .noError ∧
    create raced 64 unopened =
      (.noError, { unopened with fs := { raced.others 1 (raced.others 0 unopened.fs) with
        data := Function.update (raced.others 1 (raced.others 0 unopened.fs)).data 0
          (List.replicate 64 0) } }) :=
  ⟨rfl, create_truncates_raced_file rfl rfl rfl (fun _ => rfl) fun _ _ two => if_neg (by omega)⟩

/-- **A `Destroy` that returns has removed the path.** Under every interleaving, a `Destroy` of
a closed `ShelfFile` that does not throw leaves the path absent, also when another process
removed the file first; it returns `SHELF_FILE_NOT_FOUND` exactly when its own `Exist()` found
nothing. -/
theorem destroy_removes_path {σ : Sched} {s s' : State} {e : ErrorCode} (closed : s.fd = none)
    (returned : destroy σ s = .ok (e, s')) :
    s'.exist = false ∧ e = if (s.interfere σ 0).exist then .noError else .shelfFileNotFound := by
  unfold destroy at returned
  dsimp only at returned
  rw [if_neg (by simp [State.isOpen, State.interfere, closed])] at returned
  generalize (if (s.interfere σ 0).exist = true then ErrorCode.noError
    else ErrorCode.shelfFileNotFound) = ret at returned ⊢
  split at returned
  · split at returned
    · rename_i fs unlinked
      obtain ⟨rfl, rfl⟩ := Prod.mk.inj (Except.ok.inj returned)
      exact ⟨by simp [State.exist, Fs.present, Fs.unlink_ok unlinked], rfl⟩
    · rename_i errno failed
      by_cases vanished : errno = .enoent
      · rw [if_pos vanished] at returned
        subst vanished
        obtain ⟨rfl, rfl⟩ := Prod.mk.inj (Except.ok.inj returned)
        exact ⟨by simpa [State.exist, Fs.present] using Fs.unlink_enoent failed, rfl⟩
      · rw [if_neg vanished] at returned
        cases returned
  · rename_i absent
    obtain ⟨rfl, rfl⟩ := Prod.mk.inj (Except.ok.inj returned)
    exact ⟨by simpa using absent, rfl⟩

end Gull.ShelfMgmt.ShelfFile
