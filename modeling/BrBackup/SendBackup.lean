import BrBackup.Basic

/-! `SendBackup`: the retry loop around the backup stream of one store, and
`isRetryableError`. The outcome of every attempt, every result of `resetFn` and
the callback `respFn` are parameters, so that the theorems cover every
behaviour of the store. The model records what the loop does as a list of
events. -/

namespace BrBackup

inductive Code
  | ok | canceled | unknown | invalidArgument | deadlineExceeded | notFound | alreadyExists
  | permissionDenied | resourceExhausted | failedPrecondition | aborted | outOfRange
  | unimplemented | internal | unavailable | dataLoss | unauthenticated
  deriving DecidableEq, Repr, Inhabited

/-- An error of a gRPC call, as `status.FromError` reads it. -/
structure RpcError where
  code : Code
  msg : String
  deriving DecidableEq, Repr, Inhabited

def gRPCCancel : String := "the client connection is closing"

/-- `strings.Contains(s.Message(), gRPCCancel)` is the infix relation on the
characters of the two strings. -/
def isRetryableError (err : RpcError) : Bool :=
  err.code == .unavailable || (err.code == .canceled && decide (gRPCCancel.data <:+: err.msg.data))

/-- How an opened stream ends after its responses: `io.EOF` or an error. -/
inductive StreamEnd
  | eof
  | fail (e : RpcError)
  deriving DecidableEq, Repr, Inhabited

/-- One attempt: `client.Backup` fails, or the stream yields `resps` and ends. -/
inductive Attempt
  | openFail (e : RpcError)
  | stream (resps : List BackupResponse) (fin : StreamEnd)
  deriving DecidableEq, Repr, Inhabited

inductive SendEvent
  | open (retry : Nat)
  | openFailed (retry : Nat) (e : RpcError)
  | recv (r : BackupResponse)
  | respFnFailed (e : BrError)
  | eof
  | recvFailed (e : RpcError)
  | sleep (ms : Nat)
  | reset
  | closeSend
  deriving DecidableEq, Repr, Inhabited

/-- Whether `backupLoop` goes on with the next attempt or returns `r`. -/
inductive Flow
  | next
  | stop (r : Option BrError)
  deriving DecidableEq, Repr

/-- What one attempt, or its inner receive loop, did. -/
structure Leg (σ : Type) where
  events : List SendEvent
  state : σ
  flow : Flow

/-- What `SendBackup` did: its events, the callback's state and the error it returns. -/
structure SendRun (σ : Type) where
  events : List SendEvent
  state : σ
  err : Option BrError

def failedToConnect (msg : String) : BrError := ⟨.failedToConnect, msg⟩

section Loop

variable {σ : Type} (respFn : σ → BackupResponse → Except BrError σ) (storeID : Nat)

/-- What follows the last response of an opened stream: `io.EOF`, or a
`Recv` error, after which `resetFn` returns `reset` if it is called. -/
def streamEnd (reset : Option BrError) (retry : Nat) (st : σ) : StreamEnd → Leg σ
  | .eof => ⟨[.eof, .closeSend], st, .stop none⟩
  | .fail e =>
    if isRetryableError e then
      match reset with
      | some er => ⟨[.recvFailed e, .sleep 3000, .reset, .closeSend], st,
          .stop (some (er.annotate
            s!"failed to reset recv connection on store:{storeID} please check the tikv status"))⟩
      | none => ⟨[.recvFailed e, .sleep 3000, .reset, .closeSend], st, .next⟩
    else ⟨[.recvFailed e, .closeSend], st, .stop (some (failedToConnect
      s!"failed to connect to store: {storeID} with retry times:{retry}"))⟩

/-- The inner `for` loop over `bcli.Recv()` of one opened stream. -/
def recvLoop (reset : Option BrError) (retry : Nat) : σ → List BackupResponse → StreamEnd → Leg σ
  | st, r :: rs, fin =>
    match respFn st r with
    | .error e => ⟨[.recv r, .respFnFailed e, .closeSend], st, .stop (some e)⟩
    | .ok st' =>
      let l := recvLoop reset retry st' rs fin
      ⟨.recv r :: l.events, l.state, l.flow⟩
  | st, [], fin => streamEnd storeID reset retry st fin

/-- One iteration of the labelled loop `backupLoop`. -/
def attemptStep (reset : Option BrError) (retry : Nat) (st : σ) : Attempt → Leg σ
  | .openFail e =>
    if isRetryableError e then
      match reset with
      | some er => ⟨[.openFailed retry e, .sleep 3000, .reset], st, .stop (some (er.annotate
          s!"failed to reset backup connection on store:{storeID} please check the tikv status"))⟩
      | none => ⟨[.openFailed retry e, .sleep 3000, .reset], st, .next⟩
    else ⟨[.openFailed retry e], st, .stop (some (failedToConnect
      s!"failed to create backup stream to store {storeID}"))⟩
  | .stream resps fin =>
    let l := recvLoop respFn storeID reset retry st resps fin
    ⟨.open retry :: l.events, l.state, l.flow⟩

variable (attempts : Nat → Attempt) (resetFn : Nat → Option BrError)

/-- `backupLoop` from attempt `retry`, with `left` attempts remaining. -/
def backupLoop : Nat → Nat → σ → SendRun σ
  | 0, _, st => ⟨[], st, none⟩
  | left + 1, retry, st =>
    let l := attemptStep respFn storeID (resetFn retry) retry st (attempts retry)
    match l.flow with
    | .stop r => ⟨l.events, l.state, r⟩
    | .next =>
      let k := backupLoop left (retry + 1) l.state
      ⟨l.events ++ k.events, k.state, k.err⟩

/-- `SendBackup`: attempt `k` has outcome `attempts k`, and `resetFn k` is what
`resetFn` returns when it is called after the failure of attempt `k`. -/
def sendBackup (st : σ) : SendRun σ :=
  backupLoop respFn storeID attempts resetFn backupRetryTimes 0 st

end Loop

end BrBackup
