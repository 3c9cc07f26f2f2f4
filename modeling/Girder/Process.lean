import Girder.History
import Girder.Wal

/-!
# Process — the writer, the flush and the recovery, one I/O operation at a time

A `Store` is a directory and, while the engine runs, the state of its process: the shared engine,
the log the writer appends to, and how far the writer's message, `flush_pending` and `open_inner`
have come.  `Store.step` performs the next operation of one of them; the three are interleaved in
any order the program allows, and a crash may come between any two steps.

A crash forgets the process.  What a client may then count on is `Promised`: the acknowledged calls,
and of a call that was cut off some prefix of its writes.
-/

namespace Girder

open Lib

variable {ν : Type}

/-! ## Client calls -/

/-- The mutating calls of a client. -/
inductive Request (ν : Type)
  | putBatch (records : List (Record ν))
  | delete (key : String) (timestamp : Int64)
  | incr (key : String) (timestamp : Int64) (deltas : OrdMap String ν)

/-- The messages of the writer that append to the log. -/
inductive WriterMsg (ν : Type)
  | append (records : List (Record ν))
  | incr (record : Record ν)

namespace WriterMsg

/-- The message as writes, in order. -/
def writes : WriterMsg ν → List (Write ν)
  | append records => records.map Write.put
  | incr record => [Write.incr record]

/-- The frames the message appends. -/
def records : WriterMsg ν → List (Record ν)
  | append records => records
  | incr record => [record]

theorem map_record_writes (msg : WriterMsg ν) : msg.writes.map Write.record = msg.records := by
  cases msg with
  | append records =>
      rw [writes, List.map_map]
      exact List.map_id records
  | incr record => rfl

end WriterMsg

namespace Request

def msg : Request ν → WriterMsg ν
  | putBatch records => .append records
  | delete key timestamp => .append [Record.tombstone key timestamp]
  | incr key timestamp deltas => .incr (Record.delta key timestamp deltas)

def writes (req : Request ν) : List (Write ν) := req.msg.writes

/-- A client leaves the engine's own delta label alone. -/
def Unreserved : Request ν → Prop
  | putBatch records => ∀ r ∈ records, r.isDelta = false
  | _ => True

def isIncr : Request ν → Bool
  | incr _ _ _ => true
  | _ => false

end Request

/-! ## The running process -/

/-- The writer within a message. -/
inductive Writer (ν : Type)
  | idle
  /-- The first `n` frames of the message are in the log. -/
  | appending (msg : WriterMsg ν) (n : Nat)
  /-- The message is durable and visible, and not yet acknowledged. -/
  | applied (msg : WriterMsg ν)

namespace Writer

/-- What the message has put in the log without being visible. -/
def logged : Writer ν → List (Write ν)
  | appending msg n => msg.writes.take n
  | _ => []

/-- What the message has made visible. -/
def visible : Writer ν → List (Write ν)
  | applied msg => msg.writes
  | _ => []

/-- The next record to go to the log. -/
def next? : Writer ν → Option (Record ν)
  | appending msg n => msg.records[n]?
  | _ => none

end Writer

/-- `flush_pending` within its loop. -/
inductive FlushPhase
  | idle
  /-- The segment file is written. -/
  | written (seq : Nat)
  /-- The manifest that lists the segment is stored; its log is still there. -/
  | listed
  deriving DecidableEq, Repr

/-- How far `open_inner` has come. -/
inductive Stage
  /-- Putting and flushing what the leftover logs held. -/
  | recovering (walSeqs : List Nat)
  /-- Deleting the leftover logs. -/
  | deleting (walSeqs : List Nat)
  | serving
  deriving DecidableEq, Repr

structure Process (ν : Type) where
  engine : Engine ν
  /-- The log the writer appends to. -/
  walSeq : Nat
  writer : Writer ν
  flush : FlushPhase
  stage : Stage

/-- A directory, and the process that has it open. -/
structure Store (ν : Type) where
  disk : Disk ν := {}
  process : Option (Process ν) := none

/-- One operation. -/
inductive Action (ν : Type)
  | open (config : Config)
  | call (req : Request ν)
  | appendFrame
  | apply
  | freeze
  | ack
  | writeSegment
  | storeManifest (now : Int64)
  | removeWal
  | reappended
  | checkpointed
  | removeLeftover
  | opened
  | crash (torn : Bool)

/-- Neither a client's call nor its acknowledgement nor a crash. -/
def Action.isInternal : Action ν → Bool
  | call _ => false
  | ack => false
  | crash _ => false
  | _ => true

namespace Process

/-- The memtable is full. -/
def full (p : Process ν) : Bool :=
  decide (p.engine.config.memtableMaxRecords ≤ p.engine.memtable.len)

/-- A freeze is due at the end of the message. -/
def freezes (p : Process ν) : Bool :=
  p.full && !p.engine.memtable.isEmpty

/-- The writer handles a freeze after a message that filled the memtable, or as its own message. -/
def mayFreeze (p : Process ν) : Bool :=
  match p.writer with
  | .idle => !p.engine.memtable.isEmpty
  | .appending _ _ => false
  | .applied _ => p.freezes

/-- Hand the memtable to the flush. -/
def frozen (p : Process ν) : Process ν :=
  { p with
    walSeq := p.walSeq + 1
    engine :=
      { p.engine with
        memtable := {}
        frozen := p.engine.frozen ++ [(p.walSeq, p.engine.memtable)] } }

/-- What the listed segment holds for a key while its log is still there. -/
def listedVersion (p : Process ν) (key : String) : Option (Record ν) :=
  match p.flush, p.engine.frozen with
  | .listed, f :: _ => f.2.get key
  | _, _ => none

/-- The segment a flush lists. -/
def flushedSegment [SegmentFile ν] (seq : Nat) (now : Int64) (rows : List (Record ν)) :
    Segment ν where
  id := seq
  file := seq
  tier := .hot
  bytes := SegmentFile.fileBytes rows
  createdUnixNanos := now
  version := 2
  pulled := false
  rows := rows

/-- The manifest with a flushed segment. -/
def listing [SegmentFile ν] (p : Process ν) (seq : Nat) (now : Int64) (rows : List (Record ν)) :
    Manifest ν :=
  { p.engine.manifest with
    segments := p.engine.manifest.segments ++ [flushedSegment seq now rows] }

section Step

variable [Unicode] [Numeral ν] [SegmentFile ν]

/-- The next operation of the running process. -/
def step (p : Process ν) (d : Disk ν) : Action ν → Option (Disk ν × Process ν)
  | .open _ => none
  | .crash _ => none
  | .call req =>
      match p.stage, p.writer with
      | .serving, .idle => some (d, { p with writer := .appending req.msg 0 })
      | _, _ => none
  | .appendFrame =>
      match p.writer with
      | .appending msg n =>
          msg.records[n]?.map (fun r =>
            (d.appendFrame p.walSeq (.whole r), { p with writer := .appending msg (n + 1) }))
      | _ => none
  | .apply =>
      match p.writer with
      | .appending msg n =>
          if n = msg.records.length then
            let memtable := msg.writes.foldl MemTable.applyWrite p.engine.memtable
            some (d,
              { p with
                engine := { p.engine with memtable := memtable }
                writer := .applied msg })
          else none
      | _ => none
  | .freeze => if p.mayFreeze then some (d.openWal (p.walSeq + 1), p.frozen) else none
  | .ack =>
      match p.stage, p.writer with
      | .serving, .applied _ => if p.freezes then none else some (d, { p with writer := .idle })
      | _, _ => none
  | .writeSegment =>
      match p.flush, p.engine.frozen with
      | .idle, f :: _ =>
          let seq := p.engine.manifest.nextSegmentId
          some (d.writeSegment seq f.2.values,
            { p with
              engine :=
                { p.engine with
                  manifest := { p.engine.manifest with nextSegmentId := seq + 1 } }
              flush := .written seq })
      | _, _ => none
  | .storeManifest now =>
      match p.flush, p.engine.frozen with
      | .written seq, f :: _ =>
          let manifest := p.listing seq now f.2.values
          some (d.storeManifest manifest,
            { p with engine := { p.engine with manifest := manifest }, flush := .listed })
      | _, _ => none
  | .removeWal =>
      match p.flush, p.engine.frozen with
      | .listed, f :: rest =>
          some (d.removeWal f.1,
            { p with engine := { p.engine with frozen := rest }, flush := .idle })
      | _, _ => none
  | .reappended =>
      match p.stage, p.writer with
      | .recovering _, .applied _ =>
          if p.freezes then none else some (d, { p with writer := .idle })
      | _, _ => none
  | .checkpointed =>
      match p.stage, p.writer, p.flush, p.engine.frozen with
      | .recovering seqs, .idle, .idle, [] =>
          if p.engine.memtable.isEmpty then some (d, { p with stage := .deleting seqs }) else none
      | _, _, _, _ => none
  | .removeLeftover =>
      match p.stage with
      | .deleting (seq :: rest) => some (d.removeWal seq, { p with stage := .deleting rest })
      | _ => none
  | .opened =>
      match p.stage with
      | .deleting [] => some (d, { p with stage := .serving })
      | _ => none

end Step

/-! What each operation needs and does. -/

section Inversion

variable [Unicode] [Numeral ν] [SegmentFile ν] {p : Process ν} {d : Disk ν}
  {q : Disk ν × Process ν}

theorem step_call {req : Request ν} (h : p.step d (.call req) = some q) :
    p.stage = .serving ∧ p.writer = .idle ∧ q = (d, { p with writer := .appending req.msg 0 }) := by
  simp only [step] at h
  split at h
  · rename_i hstage hwriter
    exact ⟨hstage, hwriter, (Option.some.inj h).symm⟩
  · cases h

theorem step_appendFrame (h : p.step d .appendFrame = some q) :
    ∃ msg n r, p.writer = .appending msg n ∧ msg.records[n]? = some r ∧
      q = (d.appendFrame p.walSeq (.whole r), { p with writer := .appending msg (n + 1) }) := by
  simp only [step] at h
  split at h
  · rename_i msg n hwriter
    obtain ⟨r, hr, hq⟩ := Option.map_eq_some_iff.1 h
    exact ⟨msg, n, r, hwriter, hr, hq.symm⟩
  · cases h

theorem step_apply (h : p.step d .apply = some q) :
    ∃ msg, p.writer = .appending msg msg.records.length ∧
      q = (d,
        { p with
          engine :=
            { p.engine with memtable := msg.writes.foldl MemTable.applyWrite p.engine.memtable }
          writer := .applied msg }) := by
  simp only [step] at h
  split at h
  · rename_i msg n hwriter
    split at h
    · rename_i hn
      exact ⟨msg, by rw [hwriter, hn], (Option.some.inj h).symm⟩
    · cases h
  · cases h

theorem step_freeze (h : p.step d .freeze = some q) :
    p.engine.memtable.isEmpty = false ∧ p.writer.logged = [] ∧
      q = (d.openWal (p.walSeq + 1), p.frozen) := by
  simp only [step] at h
  split at h
  · rename_i hmay
    have hq := (Option.some.inj h).symm
    cases hwriter : p.writer with
    | idle => exact ⟨by simpa [mayFreeze, hwriter] using hmay, rfl, hq⟩
    | appending msg n => simp [mayFreeze, hwriter] at hmay
    | applied msg =>
        simp only [mayFreeze, hwriter, freezes, Bool.and_eq_true, Bool.not_eq_true'] at hmay
        exact ⟨hmay.2, rfl, hq⟩
  · cases h

theorem step_ack (h : p.step d .ack = some q) :
    p.stage = .serving ∧ ∃ msg, p.writer = .applied msg ∧ q = (d, { p with writer := .idle }) := by
  simp only [step] at h
  split at h
  · rename_i msg hstage hwriter
    split at h
    · cases h
    · exact ⟨hstage, msg, hwriter, (Option.some.inj h).symm⟩
  · cases h

theorem step_writeSegment (h : p.step d .writeSegment = some q) :
    p.flush = .idle ∧ ∃ f rest, p.engine.frozen = f :: rest ∧
      q = (d.writeSegment p.engine.manifest.nextSegmentId f.2.values,
        { p with
          engine :=
            { p.engine with
              manifest :=
                { p.engine.manifest with nextSegmentId := p.engine.manifest.nextSegmentId + 1 } }
          flush := .written p.engine.manifest.nextSegmentId }) := by
  simp only [step] at h
  split at h
  · rename_i f rest hflush hfrozen
    exact ⟨hflush, f, rest, hfrozen, (Option.some.inj h).symm⟩
  · cases h

theorem step_storeManifest {now : Int64} (h : p.step d (.storeManifest now) = some q) :
    ∃ seq f rest, p.flush = .written seq ∧ p.engine.frozen = f :: rest ∧
      q = (d.storeManifest (p.listing seq now f.2.values),
        { p with
          engine := { p.engine with manifest := p.listing seq now f.2.values }
          flush := .listed }) := by
  simp only [step] at h
  split at h
  · rename_i seq f rest hflush hfrozen
    exact ⟨seq, f, rest, hflush, hfrozen, (Option.some.inj h).symm⟩
  · cases h

theorem step_removeWal (h : p.step d .removeWal = some q) :
    p.flush = .listed ∧ ∃ f rest, p.engine.frozen = f :: rest ∧
      q = (d.removeWal f.1,
        { p with engine := { p.engine with frozen := rest }, flush := .idle }) := by
  simp only [step] at h
  split at h
  · rename_i f rest hflush hfrozen
    exact ⟨hflush, f, rest, hfrozen, (Option.some.inj h).symm⟩
  · cases h

theorem step_reappended (h : p.step d .reappended = some q) :
    ∃ seqs msg, p.stage = .recovering seqs ∧ p.writer = .applied msg ∧
      q = (d, { p with writer := .idle }) := by
  simp only [step] at h
  split at h
  · rename_i seqs msg hstage hwriter
    split at h
    · cases h
    · exact ⟨seqs, msg, hstage, hwriter, (Option.some.inj h).symm⟩
  · cases h

theorem step_checkpointed (h : p.step d .checkpointed = some q) :
    ∃ seqs, p.stage = .recovering seqs ∧ p.writer = .idle ∧ p.flush = .idle ∧
      p.engine.frozen = [] ∧ p.engine.memtable.isEmpty = true ∧
        q = (d, { p with stage := .deleting seqs }) := by
  simp only [step] at h
  split at h
  · rename_i seqs hstage hwriter hflush hfrozen
    split at h
    · rename_i hempty
      exact ⟨seqs, hstage, hwriter, hflush, hfrozen, hempty, (Option.some.inj h).symm⟩
    · cases h
  · cases h

theorem step_removeLeftover (h : p.step d .removeLeftover = some q) :
    ∃ seq rest, p.stage = .deleting (seq :: rest) ∧
      q = (d.removeWal seq, { p with stage := .deleting rest }) := by
  simp only [step] at h
  split at h
  · rename_i seq rest hstage
    exact ⟨seq, rest, hstage, (Option.some.inj h).symm⟩
  · cases h

theorem step_opened (h : p.step d .opened = some q) :
    p.stage = .deleting [] ∧ q = (d, { p with stage := .serving }) := by
  simp only [step] at h
  split at h
  · rename_i hstage
    exact ⟨hstage, (Option.some.inj h).symm⟩
  · cases h

end Inversion

/-- A crash in the middle of a frame leaves it torn. -/
def tear (p : Process ν) (torn : Bool) (d : Disk ν) : Disk ν :=
  match torn, p.writer.next? with
  | true, some _ => d.appendFrame p.walSeq .torn
  | _, _ => d

end Process

namespace Store

section Step

variable [Unicode] [Numeral ν] [SegmentFile ν] [FrameBody ν]

/-- `open_inner` up to its first write: load the manifest, replay the leftover logs, start a new
log.  What was recovered goes back through the writer as one batch. -/
def openInner (config : Config) (d : Disk ν) : Store ν :=
  let rows := rowsOf d.recovered
  let p : Process ν :=
    { engine := { config := config, manifest := d.loadManifest }
      walSeq := d.nextWalSeq
      writer := if rows.isEmpty then .idle else .appending (.append rows) 0
      flush := .idle
      stage := if rows.isEmpty then .serving else .recovering d.walSeqs }
  { disk := d.openWal d.nextWalSeq, process := some p }

/-- One operation of the program, or a crash. -/
def step (s : Store ν) (a : Action ν) : Option (Store ν) :=
  match s.process with
  | none =>
      match a with
      | .open config => some (openInner config s.disk)
      | _ => none
  | some p =>
      match a with
      | .crash torn => some { disk := p.tear torn s.disk, process := none }
      | a => (p.step s.disk a).map (fun q => { disk := q.1, process := some q.2 })

theorem step_closed {s s' : Store ν} {a : Action ν} (hprocess : s.process = none)
    (h : s.step a = some s') : ∃ config, a = .open config ∧ s' = openInner config s.disk := by
  cases a with
  | «open» config =>
      simp only [step, hprocess, Option.some.injEq] at h
      exact ⟨config, rfl, h.symm⟩
  | _ => simp [step, hprocess] at h

theorem step_running {s s' : Store ν} {a : Action ν} {p : Process ν} (hprocess : s.process = some p)
    (h : s.step a = some s') :
    (∃ torn, a = .crash torn ∧ s' = { disk := p.tear torn s.disk, process := none }) ∨
      ∃ q, p.step s.disk a = some q ∧ s' = { disk := q.1, process := some q.2 } := by
  cases a with
  | crash torn =>
      simp only [step, hprocess, Option.some.injEq] at h
      exact .inl ⟨torn, rfl, h.symm⟩
  | _ =>
      simp only [step, hprocess] at h
      obtain ⟨q, hq, hs⟩ := Option.map_eq_some_iff.1 h
      exact .inr ⟨q, hq, hs.symm⟩

/-- A sequence of operations. -/
def run (s : Store ν) : List (Action ν) → Option (Store ν)
  | [] => some s
  | a :: as => (s.step a).bind (fun s' => s'.run as)

end Step

end Store

/-! ## What a client may count on -/

/-- How an operation changes the writes a client counts on and its call in flight. -/
def Answers (history : List (Write ν)) (pending : Option (Request ν)) (a : Action ν)
    (history' : List (Write ν)) (pending' : Option (Request ν)) : Prop :=
  match a with
  | .call req => pending = none ∧ history' = history ∧ pending' = some req
  | .ack => ∃ req, pending = some req ∧ history' = history ++ req.writes ∧ pending' = none
  -- Of the call in flight some prefix of the writes may have been applied.
  | .crash _ =>
      pending' = none ∧ ∃ n, history' = history ++ (pending.elim [] Request.writes).take n
  | _ => history' = history ∧ pending' = pending

/-- `Answers` along a sequence of operations. -/
def PromisedFrom (history : List (Write ν)) (pending : Option (Request ν)) :
    List (Action ν) → List (Write ν) → Option (Request ν) → Prop
  | [], history'', pending'' => history'' = history ∧ pending'' = pending
  | a :: as, history'', pending'' =>
      ∃ history' pending', Answers history pending a history' pending' ∧
        PromisedFrom history' pending' as history'' pending''

/-- From an empty directory, after `actions` the client counts on `history` and has `pending` in
flight. -/
def Promised (actions : List (Action ν)) (history : List (Write ν))
    (pending : Option (Request ν)) : Prop :=
  PromisedFrom [] none actions history pending

section Answers

variable {Q : Request ν → Prop} {history history' : List (Write ν)}
  {pending pending' : Option (Request ν)}

/-- A call in flight was made by the client. -/
theorem Answers.forall_pending {a : Action ν} (h : Answers history pending a history' pending')
    (hcall : ∀ req, a = .call req → Q req) (hpending : ∀ req, pending = some req → Q req) :
    ∀ req, pending' = some req → Q req := by
  intro req hreq
  cases a with
  | call req' =>
      obtain ⟨-, -, rfl⟩ := h
      cases hreq
      exact hcall req rfl
  | ack =>
      obtain ⟨req', -, -, rfl⟩ := h
      cases hreq
  | crash torn =>
      obtain ⟨rfl, -⟩ := h
      cases hreq
  | _ =>
      obtain ⟨-, rfl⟩ := h
      exact hpending req hreq

/-- The history and the part of the pending call that a crash may leave. -/
theorem forall_append_take {P : Write ν → Prop} (hhistory : ∀ w ∈ history, P w)
    (hpending : ∀ req, pending = some req → ∀ w ∈ req.writes, P w) (n : Nat) :
    ∀ w ∈ history ++ (pending.elim [] Request.writes).take n, P w := by
  intro w hw
  rcases List.mem_append.1 hw with hw | hw
  · exact hhistory w hw
  · cases pending with
    | none => simp at hw
    | some req => exact hpending req rfl w (List.mem_of_mem_take hw)

/-- What the client counts on comes from its calls. -/
theorem Answers.forall_history {P : Write ν → Prop} {a : Action ν}
    (h : Answers history pending a history' pending') (hhistory : ∀ w ∈ history, P w)
    (hpending : ∀ req, pending = some req → ∀ w ∈ req.writes, P w) : ∀ w ∈ history', P w := by
  cases a with
  | ack =>
      obtain ⟨req, rfl, rfl, -⟩ := h
      intro w hw
      rcases List.mem_append.1 hw with hw | hw
      · exact hhistory w hw
      · exact hpending req rfl w hw
  | crash torn =>
      obtain ⟨-, n, rfl⟩ := h
      exact forall_append_take hhistory hpending n
  | call req =>
      obtain ⟨-, rfl, -⟩ := h
      exact hhistory
  | _ =>
      obtain ⟨rfl, -⟩ := h
      exact hhistory

theorem PromisedFrom.forall {P : Write ν → Prop} {actions : List (Action ν)} :
    ∀ {history history' : List (Write ν)} {pending pending' : Option (Request ν)},
      PromisedFrom history pending actions history' pending' → (∀ w ∈ history, P w) →
      (∀ req, pending = some req → ∀ w ∈ req.writes, P w) →
      (∀ req, .call req ∈ actions → ∀ w ∈ req.writes, P w) →
      (∀ w ∈ history', P w) ∧ ∀ req, pending' = some req → ∀ w ∈ req.writes, P w := by
  induction actions with
  | nil =>
      rintro history history' pending pending' ⟨rfl, rfl⟩ hhistory hpending _
      exact ⟨hhistory, hpending⟩
  | cons a actions ih =>
      rintro history history' pending pending' ⟨history₁, pending₁, hanswers, hrest⟩ hhistory
        hpending hcalls
      refine ih hrest (hanswers.forall_history hhistory hpending) ?_
        (fun req hreq => hcalls req (by simp [hreq]))
      exact hanswers.forall_pending (fun req hreq => hcalls req (by simp [hreq])) hpending

/-- Everything a client may see comes from its calls. -/
theorem Promised.writes {P : Write ν → Prop} {actions : List (Action ν)}
    (h : Promised actions history pending)
    (hcalls : ∀ req, .call req ∈ actions → ∀ w ∈ req.writes, P w) (n : Nat) :
    ∀ w ∈ history ++ (pending.elim [] Request.writes).take n, P w := by
  obtain ⟨hhistory, hpending⟩ := PromisedFrom.forall h (by simp) (by simp) hcalls
  exact forall_append_take hhistory hpending n

end Answers

end Girder
