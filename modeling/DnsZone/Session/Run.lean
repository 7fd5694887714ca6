import DnsZone.Session.Site

/-!
# Running a session

A command that needs write access is refused while a slot of the session holds it, since nobody else
could ever give it back. Background writers run as soon as access is handed to them, one after the
other in the order in which they asked for it; what became of them is told with the first command
after which none of them is waiting. A transaction of a versioned zone does not keep the zone: once
the session has let go of it, only updaters and background writers do.
-/

namespace DnsZone.Session

/-- The order of slots by name. -/
def compareSlots : String → String → Ordering :=
  Order.onKey (fun s => s.toList.map Char.toNat) (List.compareLex Order.byNat)

instance : Std.TransCmp compareSlots :=
  inferInstanceAs (Std.TransCmp
    (Order.onKey (fun s : String => s.toList.map Char.toNat) (List.compareLex Order.byNat)))

/-- Named slots. -/
abbrev Slots (α : Type) := OrderedMap String compareSlots α

end DnsZone.Session

namespace DnsZone

open Session

/-- A session on a zone of type `ζ` whose transactions have states of type `τ`. -/
structure Session (ζ τ : Type) where
  zone : ζ
  /-- Whether the session has not let go of the zone. -/
  held : Bool := true
  txns : Slots (Transaction τ) := .empty
  updaters : Slots (Updater τ) := .empty
  /-- The background writers that wait, with the numbers under which they do. -/
  jobs : List (Nat × Job) := []
  /-- What became of background writers and was not told yet. -/
  results : List JobResult := []

namespace Session

variable {ζ τ : Type} [Access τ] [Site ζ τ]

/-- Makes calls on a transaction up to the first that fails. -/
def runCalls (t : Transaction τ) (z : ζ) :
    List (Input Call) → Except Fault (List Reply) × Transaction τ × ζ
  | [] => (.ok [], t, z)
  | .error e :: _ => (.error (.input e), t, z)
  | .ok c :: rest =>
      match t.call z c with
      | (.error e, t, z) => (.error (.zone e), t, z)
      | (.ok reply, t, z) =>
          let (replies, t, z) := runCalls t z rest
          (replies.map (reply :: ·), t, z)

/-- Asks questions of a transaction up to the first that fails. -/
def runQueries (t : Transaction τ) (z : ζ) : List (Input Query) → Except Fault (List Reply)
  | [] => .ok []
  | .error e :: _ => .error (.input e)
  | .ok q :: rest =>
      match t.ask z q with
      | .error e => .error (.zone e)
      | .ok reply => (runQueries t z rest).map (reply :: ·)

/-- Ends the transaction of a background writer. -/
def endJob (ending : JobEnd) (t : Transaction τ) (z : ζ) : Option (Except ZoneError Unit) × ζ :=
  match ending with
  | .commit =>
      let (result, _, z) := t.commit z
      (some result, z)
  | .rollback =>
      let (result, _, z) := t.rollback z
      (some result, z)
  | .drop => (none, t.drop z)

/-- Runs a background writer that has been given access. -/
def runJob (job : Job) (t : Transaction τ) (z : ζ) : JobResult × ζ :=
  let (replies, t, z) := runCalls t z job.calls
  let (ended?, z) := endJob job.ending t z
  (⟨job.id, replies, ended?⟩, z)

/-- Runs waiting background writers in order for as long as access is handed to them. Yields what
became of them and those that still wait. -/
def runJobs (h : History ζ τ) (z : ζ) :
    List (Nat × Job) → List JobResult × List (Nat × Job) × ζ
  | [] => ([], [], z)
  | (id, job) :: rest =>
      match h.take? id z with
      | none => ([], (id, job) :: rest, z)
      | some z =>
          let (result, z) := runJob job (h.startWriter job.replacement z) z
          let (results, waiting, z) := runJobs h z rest
          (result :: results, waiting, z)

/-- The session after the background writers to which access was handed have run. -/
def settle (s : Session ζ τ) : Session ζ τ :=
  match (Site.history? : Option (History ζ τ)) with
  | none => s
  | some h =>
      let (results, waiting, z) := runJobs h s.zone s.jobs
      { s with zone := z, jobs := waiting, results := s.results ++ results }

omit [Site ζ τ] in
/-- Whether a slot of the session has write access. -/
def holdsAccess (s : Session ζ τ) : Bool :=
  s.txns.toList.any (fun e => Access.mode e.2.access = .writing) ||
    s.updaters.toList.any fun e => !e.2.isFinished

/-- Puts a transaction into a slot and drops the one that was there. -/
def store (s : Session ζ τ) (slot : String) (t : Transaction τ) (z : ζ) : Session ζ τ :=
  let z := match s.txns.find? slot with
    | none => z
    | some old => old.drop z
  { s with zone := z, txns := s.txns.insert slot t }

/-- The answer to a command that starts a transaction. -/
def storeStarted (s : Session ζ τ) (slot : String) (t : Transaction τ) (z : ζ) :
    Except Fault Answer × Session ζ τ :=
  (.ok (.started (Access.versionId? t.access)), s.store slot t z)

/-- What a command yields of which an argument may have failed to read. -/
def withInput {α : Type} (input : Input α) (s : Session ζ τ)
    (body : α → Except Fault Answer × Session ζ τ) : Except Fault Answer × Session ζ τ :=
  match input with
  | .error e => (.error (.input e), s)
  | .ok a => body a

/-- What a command yields that only a zone with a history has. -/
def withHistory (s : Session ζ τ) (body : History ζ τ → Except Fault Answer × Session ζ τ) :
    Except Fault Answer × Session ζ τ :=
  match (Site.history? : Option (History ζ τ)) with
  | none => (.error .unsupported, s)
  | some h => body h

def direct (s : Session ζ τ) (change : ζ → Option (Except ZoneError Unit × ζ)) :
    Except Fault Answer × Session ζ τ :=
  match change s.zone with
  | none => (.error .wouldBlock, s)
  | some (.error e, z) => (.error (.zone e), { s with zone := z })
  | some (.ok (), z) => (.ok .done, { s with zone := z })

def startJob (h : History ζ τ) (s : Session ζ τ) (job : Job) : Except Fault Answer × Session ζ τ :=
  match h.enqueue s.zone with
  | (none, z) =>
      let (result, z) := runJob job (h.startWriter job.replacement z) z
      (.ok (.waits false), { s with zone := z, results := s.results ++ [result] })
  | (some id, z) => (.ok (.waits true), { s with zone := z, jobs := s.jobs ++ [(id, job)] })

def onZone (s : Session ζ τ) (c : ZoneCommand) : Except Fault Answer × Session ζ τ :=
  match c with
  | .reader slot query? =>
      match Transaction.reader query? s.zone with
      | .error e => (.error (.zone e), s)
      | .ok (t, z) => s.storeStarted slot t z
  | .writer slot replacement =>
      match Transaction.writer? replacement s.zone with
      | none => (.error .wouldBlock, s)
      | some (t, z) => s.storeStarted slot t z
  | .tryWriter slot replacement =>
      s.withHistory fun _ =>
        match Transaction.writer? replacement s.zone with
        | none => (.ok .notStarted, s)
        | some (t, z) => s.storeStarted slot t z
  | .writerInTime slot replacement =>
      s.withHistory fun h =>
        match h.writerInTime replacement s.zone with
        | (.error e, z) => (.error (.zone e), { s with zone := z })
        | (.ok t, z) => s.storeStarted slot t z
  | .info => (.ok (.info (Host.origin s.zone) (Host.cls s.zone)), s)
  | .latest =>
      s.withHistory fun h =>
        let v := h.latest s.zone
        (.ok (.version v ((Host.origin s.zone).apex?.bind v.soaSerial?)), s)
  | .setPolicy policy =>
      s.withHistory fun h =>
        match policy with
        | .error e => (.error (.zone e), s)
        | .ok policy =>
            match h.setPolicy policy s.zone with
            | .error e => (.error (.zone e), s)
            | .ok z => (.ok .done, { s with zone := z })
  | .findSet args =>
      withInput args s fun (n, key) =>
        (.ok (.reply (.recordSet (DirectStore.findSet? s.zone n key))), s)
  | .findNode n =>
      withInput n s fun n => (.ok (.reply (.node (DirectStore.findNode? s.zone n))), s)
  | .replaceSet args => withInput args s fun (n, set) => s.direct (DirectStore.replaceSet n set)
  | .deleteSet args => withInput args s fun (n, key) => s.direct (DirectStore.deleteSet n key)
  | .deleteNode n => withInput n s fun n => s.direct (DirectStore.deleteNode n)
  | .writeWith replacement calls =>
      match Transaction.writer? replacement s.zone with
      | none => (.error .wouldBlock, s)
      | some (t, z) =>
          let (result, z) :=
            Transaction.writeWith Fault.zone (fun t z => runCalls t z calls) t z
          (result.map .replies, { s with zone := z })
  | .readWith query? queries =>
      match Transaction.reader query? s.zone with
      | .error e => (.error (.zone e), s)
      | .ok (t, z) =>
          let (result, z) := Transaction.readWith (fun t z => runQueries t z queries) t z
          (result.map .replies, { s with zone := z })
  | .enqueue job => s.withHistory fun h => s.startJob h job
  | .dropZone => (.ok .done, { s with held := false })
  | .updater slot =>
      match Updater.start? s.zone with
      | none => (.error .wouldBlock, s)
      | some (u, z) =>
          let z := match s.updaters.find? slot with
            | none => z
            | some old => old.drop z
          (.ok .done, { s with zone := z, updaters := s.updaters.insert slot u })

/-- Applies an update. If the updater has to wait for access after a batch, the background writers
that wait before it run first. -/
def applyUpdate (s : Session ζ τ) (slot : String) (u : Updater τ) (update : Update) :
    Except Fault Answer × Session ζ τ :=
  let answer (p : Progress) (u : Updater τ) (s : Session ζ τ) :=
    match p with
    | .waiting => (.error .wouldBlock, s)
    | .settled result =>
        (.ok (.applied update.text result u.isFinished),
          { s with updaters := s.updaters.insert slot u })
  match u.apply s.zone update with
  | (.waiting, u, z) =>
      let s := settle { s with zone := z }
      let (p, u, z) := u.resume s.zone
      answer p u { s with zone := z }
  | (p, u, z) => answer p u { s with zone := z }

def onSlot (s : Session ζ τ) (c : SlotCommand) : Except Fault Answer × Session ζ τ :=
  match c with
  | .call slot input =>
      match s.txns.find? slot with
      | none => (.error .noSlot, s)
      | some t =>
          withInput input s fun c =>
            let (result, t, z) := t.call s.zone c
            ((result.map .reply).mapError .zone,
              { s with zone := z, txns := s.txns.insert slot t })
  | .drop slot =>
      match s.txns.find? slot with
      | none => (.error .noSlot, s)
      | some t => (.ok .done, { s with zone := t.drop s.zone, txns := s.txns.erase slot })
  | .apply slot input =>
      match s.updaters.find? slot with
      | none => (.error .noSlot, s)
      | some u => withInput input s fun update => s.applyUpdate slot u update
  | .dropUpdater slot =>
      match s.updaters.find? slot with
      | none => (.error .noSlot, s)
      | some u => (.ok .done, { s with zone := u.drop s.zone, updaters := s.updaters.erase slot })

/-- Notes whether anybody still holds the zone. -/
def noteHolders (s : Session ζ τ) : Session ζ τ :=
  { s with zone := Site.keep (s.held || !s.updaters.isEmpty || !s.jobs.isEmpty) s.zone }

def step (s : Session ζ τ) (c : Command) : Except Fault Answer × Session ζ τ :=
  match c with
  | .onSlot c =>
      let (answer, s) := s.onSlot c
      (answer, s.settle.noteHolders)
  | .onZone c =>
      if c.needsAccess (Site.writesDirectly ζ) && s.holdsAccess then (.error .wouldBlock, s)
      else if !s.held then (.error .noZone, s)
      else
        let (answer, s) := s.onZone c
        (answer, s.settle.noteHolders)

/-- What can be seen of the zone, unless the session has let go of it. -/
def state? (s : Session ζ τ) : Option ZoneState := if s.held then some (Site.state s.zone) else none

/-- What became of background writers, if none is waiting any more, and the session after that was
told. -/
def report (s : Session ζ τ) : Option (List JobResult) × Session ζ τ :=
  if s.results.isEmpty || (!s.jobs.isEmpty && s.holdsAccess) then (none, s)
  else (some s.results, { s with results := [] })

/-- What is told after a command. -/
structure Report (α : Type) where
  answer : α
  state? : Option ZoneState
  results? : Option (List JobResult)

/-- What is told of an answer, and the session afterwards. -/
def tell {α : Type} (answer : α) (s : Session ζ τ) : Report α × Session ζ τ :=
  let (results?, s') := s.report
  (⟨answer, s.state?, results?⟩, s')

/-- Carries out commands in order. -/
def run (s : Session ζ τ) : List Command → List (Report (Except Fault Answer)) × Session ζ τ
  | [] => ([], s)
  | c :: rest =>
      let (answer, s) := s.step c
      let (report, s) := s.tell answer
      let (reports, s) := run s rest
      (report :: reports, s)

/-- The record sets that a fresh reader lists, which is then dropped. -/
def listing (s : Session ζ τ) : Option (List (Name × RecordSet)) × Session ζ τ :=
  if !s.held then (none, s)
  else
    match Transaction.reader none s.zone with
    | .error _ => (none, s)
    | .ok (t, z) => ((t.sets z).toOption, { s with zone := t.drop z })

/-- Drops everything that a session has in its slots. -/
def dropSlots (s : Session ζ τ) : Session ζ τ :=
  let s := s.txns.keys.foldl (fun s slot => (s.step (.onSlot (.drop slot))).2) s
  s.updaters.keys.foldl (fun s slot => (s.step (.onSlot (.dropUpdater slot))).2) s

/-- Ends a session: lists the record sets and drops everything. -/
def close (s : Session ζ τ) : Report (Option (List (Name × RecordSet))) × Session ζ τ :=
  let (listing, s) := s.listing
  s.dropSlots.tell listing

end Session

end DnsZone
