import Mathlib

/-! The data model of the backup client: keys and key ranges, the backup
request and response messages, and the error classes of `berrors` that the
client produces or passes on. -/

namespace BrBackup

/-- A key is a byte string, ordered lexicographically as `bytes.Compare` does. -/
abbrev Key := List (Fin 256)

/-- An SST file produced by a store; the client only forwards it. -/
structure File where
  name : String
  deriving DecidableEq, Repr, Inhabited

/-- `rtree.Range`: a half-open key range with the files backing it up. An empty
`endKey` means the range is unbounded above. -/
structure Range where
  startKey : Key
  endKey : Key
  files : List File
  deriving DecidableEq, Repr

inductive ApiVersion
  | v1 | v1ttl | v2
  deriving DecidableEq, Repr

inductive CompressionType
  | unknown | lz4 | snappy | zstd
  deriving DecidableEq, Repr

structure StorageBackend where
  uri : String
  deriving DecidableEq, Repr

structure CipherInfo where
  cipherType : Nat
  cipherKey : List (Fin 256)
  deriving DecidableEq, Repr

/-- `backuppb.BackupRequest`, with the fields the client sets. -/
structure BackupRequest where
  clusterId : Nat
  startKey : Key
  endKey : Key
  startVersion : Nat
  endVersion : Nat
  storageBackend : Option StorageBackend
  rateLimit : Nat
  concurrency : Nat
  isRawKv : Bool
  cf : String
  dstApiVersion : ApiVersion
  compressionType : CompressionType
  compressionLevel : Int
  cipherInfo : Option CipherInfo
  deriving DecidableEq, Repr

/-- `kvrpcpb.LockInfo`, handed unchanged to the lock resolver. -/
structure LockInfo where
  primaryLock : Key
  lockVersion : Nat
  key : Key
  lockTtl : Nat
  deriving DecidableEq, Repr

/-- `kvrpcpb.KeyError`; every variant other than `Locked` has `locked = none`. -/
structure KvError where
  locked : Option LockInfo
  deriving DecidableEq, Repr

/-- `errorpb.Error`: one flag per variant that `OnBackupResponse` tests. -/
structure RegionError where
  message : String
  notLeader : Bool
  regionNotFound : Bool
  epochNotMatch : Bool
  serverIsBusy : Bool
  staleCommand : Bool
  storeNotMatch : Bool
  readIndexNotReady : Bool
  proposalInMergingMode : Bool
  deriving DecidableEq, Repr

structure ClusterIdError where
  current : Nat
  request : Nat
  deriving DecidableEq, Repr

/-- The `Detail` oneof of `backuppb.Error`. -/
inductive ErrorDetail
  | kvError (e : KvError)
  | regionError (e : RegionError)
  | clusterIdError (e : ClusterIdError)
  deriving DecidableEq, Repr

/-- `backuppb.Error`; `detail = none` is a message-only error. -/
structure PbError where
  msg : String
  detail : Option ErrorDetail
  deriving DecidableEq, Repr

/-- `backuppb.BackupResponse`; `error = none` is the nil `Error` of a success. -/
structure BackupResponse where
  error : Option PbError
  startKey : Key
  endKey : Key
  files : List File
  deriving DecidableEq, Repr, Inhabited

/-- The class of an error, as `berrors.Is` tests it. Errors from PD, the lock
resolver, the connection manager or the metaWriter carry any class. -/
inductive ErrClass
  | invalidArgument
  | kvUnknown
  | kvClusterIDMismatch
  | failedToConnect
  | backupNoLeader
  | unknown
  | external (name : String)
  deriving DecidableEq, Repr, Inhabited

structure BrError where
  cls : ErrClass
  msg : String
  deriving DecidableEq, Repr, Inhabited

/-- `errors.Annotatef(err, m)`: the cause, and with it the class, is kept. -/
def BrError.annotate (e : BrError) (m : String) : BrError :=
  { e with msg := m ++ ": " ++ e.msg }

/-- `berrors.ErrInvalidArgument`. -/
def errInvalidArgument : BrError := ⟨.invalidArgument, "invalid argument"⟩

@[simp] theorem BrError.annotate_cls (e : BrError) (m : String) : (e.annotate m).cls = e.cls := rfl

@[simp] theorem except_ok_bind {ε α β : Type} (a : α) (f : α → Except ε β) :
    (Except.ok a >>= f) = f a := rfl

@[simp] theorem except_pure_eq_ok {ε α : Type} (a : α) : (pure a : Except ε α) = .ok a := rfl

@[simp] theorem except_error_bind {ε α β : Type} (e : ε) (f : α → Except ε β) :
    (Except.error e >>= f) = Except.error e := rfl

inductive ProgressUnit
  | range | region
  deriving DecidableEq, Repr

def backupFineGrainedMaxBackoff : Nat := 80000

def backupRetryTimes : Nat := 5

end BrBackup
