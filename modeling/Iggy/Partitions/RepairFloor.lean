import Iggy.Partitions.PollPlan
import Mathlib.Data.Finset.Card
import Mathlib.Data.List.Dedup
import Mathlib.Order.Interval.Finset.Nat

/-!
# Settling a repair at the peer's floor

Source: journal.rs:415-443, 976-1082; iggy_partition.rs:8794-8962, 10915-10946, 12610-12948.

`complete_repair` of a partition that has no prepare WAL. A peer that has evicted the front of the
window that was asked for reports the floor below which it serves nothing; the replica may jump
there only when its recovered segments, or a frontier that was installed, reach up to the lowest
batch it holds above. Everything else is committed by the walk through the journal, which stops at
the first op that is missing.

What a walk reads of its surroundings is an argument (`Walk`): whether it may start, whether the
view's fence still stands after its proof was tried, which entries are ready, how many of those it
selected were published, and the journal and the pipeline that flush, proof and new requests leave
behind. Nonces, peers, pacing and the diagnostics of a session are left out.
-/

namespace Iggy

open List Lib Batch Poll

/-! ## The journal's windows -/

namespace ResidentJournal

/-- `repaired_window_shape`: every op of `(floor, toOp]` is resident. -/
def repairedWindowShape (j : ResidentJournal) (floor toOp : Nat) : Bool :=
  let expected := toOp - floor
  if j.entries.length < expected then false
  else
    let present := (j.entries.map (·.header.op)).filter fun op => floor < op ∧ op ≤ toOp
    present.dedup.length == expected

/-- `lowest_resident_send_in`: the lowest op that a send's header has, with its stored bytes. -/
def lowestResidentSendIn (j : ResidentJournal) (from_ toOp : Nat) : Option ResidentPrepare := do
  let sends := j.entries.filter fun p =>
    p.header.operation = .sendMessages ∧ from_ ≤ p.header.op ∧ p.header.op ≤ toOp
  let op ← (sends.map (·.header.op)).min?
  j.entries.reverse.find? (·.header.op = op)

variable {j : ResidentJournal}

theorem holdsOp_eq_true {op : Nat} : j.holdsOp op = true ↔ op ∈ j.entries.map (·.header.op) := by
  simp [holdsOp]

/-- As many distinct ops as it is long. -/
theorem holdsOp_of_repairedWindowShape {floor toOp op : Nat}
    (h : j.repairedWindowShape floor toOp = true) (hfloor : floor < op) (hop : op ≤ toOp) :
    j.holdsOp op = true := by
  unfold repairedWindowShape at h
  dsimp only at h
  split_ifs at h
  generalize hpresent : (j.entries.map (·.header.op)).filter
    (fun op => decide (floor < op ∧ op ≤ toOp)) = present at h
  have hsub : present.toFinset ⊆ Finset.Ioc floor toOp := fun x hx => by
    rw [mem_toFinset, ← hpresent, mem_filter] at hx
    simpa using hx.2
  have hcard : (Finset.Ioc floor toOp).card ≤ present.toFinset.card := by
    rw [Nat.card_Ioc, card_toFinset]
    exact (beq_iff_eq.mp h).ge
  have hmem : op ∈ present.toFinset := by
    rw [Finset.eq_of_subset_of_card_le hsub hcard, Finset.mem_Ioc]
    exact ⟨hfloor, hop⟩
  rw [mem_toFinset, ← hpresent] at hmem
  exact holdsOp_eq_true.mpr (mem_filter.mp hmem).1

theorem lowestResidentSendIn_eq_some {from_ toOp : Nat} {p : ResidentPrepare}
    (h : j.lowestResidentSendIn from_ toOp = some p) :
    p ∈ j.entries ∧ from_ ≤ p.header.op ∧ ∃ q ∈ j.entries,
      q.header.op = p.header.op ∧ q.header.operation = .sendMessages := by
  simp only [lowestResidentSendIn, Option.bind_eq_bind, Option.bind_eq_some_iff] at h
  obtain ⟨op, hmin, hfind⟩ := h
  obtain rfl : p.header.op = op := by simpa using find?_some hfind
  obtain ⟨q, hq, hop⟩ := mem_map.mp (min?_mem hmin)
  simp only [mem_filter, decide_eq_true_eq] at hq
  exact ⟨mem_reverse.mp (mem_of_find?_eq_some hfind), hop ▸ hq.2.2.1, q, hq.1, hop, hq.2.1⟩

end ResidentJournal

/-! ## The partition -/

structure RepairSession where
  view : Nat
  commitToOp : Nat
  fetchToOp : Nat
  floor : Option Nat
  deriving DecidableEq

inductive RepairConclusion
  | inProgress
  | done
  | floorRefused (floor toOp : Nat)
  deriving DecidableEq

structure RepairPartition where
  journal : ResidentJournal
  pipeline : List PrepareHeader := []
  commitMin : Nat
  commitMax : Nat
  view : Nat
  normal : Bool := true
  viewLogUnproven : Bool := false
  recoveredCommit : Nat := 0
  recoveredDurableOffset : Option Nat := none
  installedFrontier : Option Nat := none
  repair : Option RepairSession

structure Walk where
  blocked : Bool := false
  fenced : Bool := false
  ready : PrepareHeader → Bool := fun _ => true
  published : Nat
  journal : ResidentJournal
  pipeline : List PrepareHeader := []

def commitWalkOpsMax : Nat := 64

def Operation.isPartitionLifecycle : Operation → Bool
  | .installConsumerGroupOwner | .transitionPartitionHistory | .retireConsumerGroupOwners => true
  | _ => false

/-- The entries at `op`, `op + 1` and so on, up to the first that is missing or not ready. -/
def takeRun (lookup : Nat → Option PrepareHeader) (ready : PrepareHeader → Bool) :
    Nat → Nat → List PrepareHeader
  | _, 0 => []
  | op, n + 1 =>
    match lookup op with
    | some header => if ready header then header :: takeRun lookup ready (op + 1) n else []
    | none => []

namespace RepairPartition

variable (s : RepairPartition)

/-- `select_persistable_commits` and `peek_committable_head`. -/
def selectPersistableCommits (walk : Walk) : List PrepareHeader :=
  match s.pipeline.head? with
  | none => []
  | some head =>
    if head.op ≤ s.commitMax ∧ head.op = s.commitMin + 1 then
      takeRun (fun op => s.pipeline.find? (·.op = op)) walk.ready head.op
        (s.commitMax + 1 - head.op)
    else []

/-- `collect_committable_from_journal` and `committed_headers_from`. -/
def collectCommittable (walk : Walk) : List PrepareHeader :=
  let fromOp := s.commitMin + 1
  if walk.fenced ∧ s.recoveredCommit < fromOp then []
  else
    let ceiling := match s.pipeline.head? with
      | some head => if fromOp ≤ head.op then min s.commitMax (head.op - 1) else s.commitMax
      | none => s.commitMax
    let ceiling := if walk.fenced then min ceiling s.recoveredCommit else ceiling
    takeRun s.journal.headerByOp walk.ready fromOp
      (min (min (ceiling + 1 - fromOp) commitWalkOpsMax) s.journal.entries.length)

/-- A lifecycle op commits alone or ends the run before it. -/
def cutAtLifecycle (headers : List PrepareHeader) : List PrepareHeader :=
  match headers.findIdx? (·.operation.isPartitionLifecycle) with
  | some index => headers.take (max index 1)
  | none => headers

def selectCommit (headers : List PrepareHeader) : List PrepareHeader :=
  let run := cutAtLifecycle headers
  if run.map (·.op) = List.range' (s.commitMin + 1) run.length then run else []

def commitJournal (walk : Walk) : RepairPartition :=
  if walk.blocked || s.viewLogUnproven then s
  else if walk.fenced ∧ s.recoveredCommit ≤ s.commitMin then { s with journal := walk.journal }
  else
    let drained := if walk.fenced then [] else s.selectPersistableCommits walk
    let drained := if drained.isEmpty then s.collectCommittable walk else drained
    { s with
      commitMin := s.commitMin + ((s.selectCommit drained).take walk.published).length
      journal := walk.journal
      pipeline := walk.pipeline }

structure RepairAnchor where
  op : Nat
  baseOffset : Nat
  deriving DecidableEq

section

variable (xxh3 : Bytes → UInt64) (s : RepairPartition)

def repairWindowAnchor (floor commitToOp : Nat) : Option RepairAnchor := do
  guard (floor + 1 < 2 ^ 64)
  let entry ← s.journal.lowestResidentSendIn (floor + 1) commitToOp
  let batch ← decodePrepareSliceTrusted entry
  guard (calculateBatchChecksum xxh3 batch.header batch.blob = batch.header.batchChecksum)
  some ⟨entry.header.op, batch.header.baseOffset⟩

/-- What stands in below a floor: the recovered bytes or an installed frontier. -/
def standIn : Option Nat :=
  (s.recoveredDurableOffset.map fun durable => saturate (durable + 1)).merge max s.installedFrontier

def connected (anchor : Option RepairAnchor) : Bool :=
  match anchor, s.standIn with
  | some anchor, some bound => anchor.baseOffset ≤ bound
  | some anchor, none => anchor.baseOffset = 0
  | none, _ => false

def repairLeadingEdgeResident (floor : Nat) (anchor : Option RepairAnchor) : Bool :=
  anchor.any fun anchor => s.journal.repairedWindowShape floor (anchor.op - 1)

/-- The partition after its walk and the conclusion, if there is one. -/
def refuseDisconnectedFloor (walk : Walk) (session : RepairSession) (floor : Nat)
    (anchor : Option RepairAnchor) (windowComplete : Bool) :
    RepairPartition × Option RepairConclusion :=
  let s := s.commitJournal walk
  if session.floor.any (· ≤ s.commitMin) then (s, none)
  else if windowComplete || s.repairLeadingEdgeResident floor anchor then
    ({ s with repair := none }, some (.floorRefused floor session.commitToOp))
  else (s, some .inProgress)

/-- The end of `complete_repair`: the walk, and whether it closes the session. -/
def concludeRepair (walk : Walk) (session : RepairSession) : RepairPartition × RepairConclusion :=
  let s := s.commitJournal walk
  let fetchComplete := decide (session.fetchToOp ≤ session.commitToOp) ||
    s.journal.repairedWindowShape (max session.commitToOp s.commitMin) session.fetchToOp
  if session.commitToOp ≤ s.commitMin ∧ fetchComplete then ({ s with repair := none }, .done)
  else (s, .inProgress)

/-- The middle of `complete_repair`: a floor above the commit point is taken or refused. -/
def settleFloor (refusal final : Walk) (session : RepairSession) :
    RepairPartition × RepairConclusion :=
  match session.floor.filter (s.commitMin < ·) with
  | none => s.concludeRepair final session
  | some reported =>
    if s.viewLogUnproven then
      ({ s with repair := none }, .floorRefused reported session.commitToOp)
    else
      let floor := min reported s.commitMax
      let anchor := s.repairWindowAnchor xxh3 floor session.commitToOp
      if s.connected anchor then
        let raised := if s.commitMin < floor then { s with commitMin := floor } else s
        raised.concludeRepair final session
      else
        match s.refuseDisconnectedFloor refusal session floor anchor
          (s.journal.repairedWindowShape floor session.commitToOp) with
        | (s, some conclusion) => (s, conclusion)
        | (s, none) => s.concludeRepair final session

/-- `complete_repair`; `refusal` and `final` are its two walks. A floor whose window is resident is
dropped from the session. -/
def completeRepair (historyBusy : Bool) (refusal final : Walk) :
    RepairPartition × RepairConclusion :=
  if historyBusy then (s, .inProgress)
  else match s.repair with
  | none => (s, .done)
  | some session =>
    if ¬ s.normal ∨ s.view ≠ session.view then ({ s with repair := none }, .done)
    else
      s.settleFloor xxh3 refusal final { session with
        floor := session.floor.filter fun floor =>
          !s.journal.repairedWindowShape s.commitMin floor }

end

/-! ## Walks -/

variable {s : RepairPartition} {walk : Walk}

/-- Ops that the partition has an entry of, in the journal or in its own pipeline. -/
def Holds (s : RepairPartition) (op : Nat) : Prop :=
  s.journal.holdsOp op = true ∨ ∃ header ∈ s.pipeline, header.op = op

variable {header : PrepareHeader}

theorem mem_takeRun {lookup : Nat → Option PrepareHeader} {ready : PrepareHeader → Bool}
    {op n : Nat} (h : header ∈ takeRun lookup ready op n) :
    ∃ op, lookup op = some header := by
  induction n generalizing op with
  | zero => exact nomatch h
  | succ n ih =>
    rw [takeRun] at h
    split at h
    case h_2 => exact nomatch h
    rename_i found hlookup
    split at h
    · obtain rfl | h := mem_cons.mp h
      · exact ⟨op, hlookup⟩
      · exact ih h
    · exact nomatch h

theorem holds_of_mem_selectPersistableCommits (h : header ∈ s.selectPersistableCommits walk) :
    s.Holds header.op := by
  unfold selectPersistableCommits at h
  split at h
  · exact nomatch h
  split at h
  · obtain ⟨op, hfind⟩ := mem_takeRun h
    exact .inr ⟨header, mem_of_find?_eq_some hfind, rfl⟩
  · exact nomatch h

theorem holds_of_mem_collectCommittable (h : header ∈ s.collectCommittable walk) :
    s.Holds header.op := by
  unfold collectCommittable at h
  dsimp only at h
  split at h
  · exact nomatch h
  obtain ⟨op, hfind⟩ := mem_takeRun h
  obtain ⟨p, hp, rfl⟩ := Option.map_eq_some_iff.mp hfind
  exact .inl (ResidentJournal.holdsOp_eq_true.mpr
    (mem_map_of_mem (mem_of_find?_eq_some hp)))

theorem selectCommit_spec (s : RepairPartition) (headers : List PrepareHeader) :
    (s.selectCommit headers).map (·.op) =
        List.range' (s.commitMin + 1) (s.selectCommit headers).length ∧
      ∀ header ∈ s.selectCommit headers, header ∈ headers := by
  unfold selectCommit
  dsimp only
  split
  case isTrue hrun =>
    refine ⟨hrun, fun header h => ?_⟩
    unfold cutAtLifecycle at h
    split at h
    · exact mem_of_mem_take h
    · exact h
  case isFalse => exact ⟨rfl, nofun⟩

/-- `after` has its commit point behind that of `before`, and `before` has an entry of every op
between. -/
def Walked (before after : RepairPartition) : Prop :=
  before.commitMin ≤ after.commitMin ∧
    ∀ op, before.commitMin < op → op ≤ after.commitMin → before.Holds op

theorem walked_of_eq {after : RepairPartition} (h : after.commitMin = s.commitMin) :
    Walked s after :=
  ⟨h.ge, fun op hlt hle => by omega⟩

theorem walked_commitJournal (s : RepairPartition) (walk : Walk) :
    Walked s (s.commitJournal walk) := by
  unfold commitJournal
  split
  · exact walked_of_eq rfl
  split
  · exact walked_of_eq rfl
  dsimp only
  generalize hdrained :
    (if walk.fenced = true then [] else s.selectPersistableCommits walk) = drained
  have hmem : ∀ header ∈ (if drained.isEmpty = true then s.collectCommittable walk else drained),
      s.Holds header.op := by
    intro header h
    split at h
    · exact holds_of_mem_collectCommittable h
    · rw [← hdrained] at h
      split at h
      · exact nomatch h
      · exact holds_of_mem_selectPersistableCommits h
  generalize (if drained.isEmpty = true then s.collectCommittable walk else drained) = headers
    at hmem ⊢
  obtain ⟨hops, hgiven⟩ := s.selectCommit_spec headers
  refine ⟨Nat.le_add_right _ _, fun op hlt hle => ?_⟩
  -- the op is one of the run
  have hop : op ∈ (s.selectCommit headers).map (·.op) := by
    have hlen := length_take_le' walk.published (s.selectCommit headers)
    rw [hops, mem_range'_1]
    dsimp only at hle
    omega
  obtain ⟨header, hheader, rfl⟩ := mem_map.mp hop
  exact hmem header (hgiven header hheader)

/-! ## The group's ops -/

/-- The offsets of a prepare's messages: the range its batch was stamped with. -/
def offsetsOf (p : ResidentPrepare) : List Nat :=
  match residentBatch p with
  | some batch => List.range' batch.header.baseOffset batch.header.messageCount
  | none => []

/-- The prepares of the group, by op: no batch is empty, and offsets increase in op order. -/
structure Ops where
  prepare : Nat → Option ResidentPrepare
  nonempty : ∀ {op p batch}, prepare op = some p → residentBatch p = some batch →
    batch.header.messageCount ≠ 0
  increasing : ∀ {a b p q x y}, a < b → prepare a = some p → prepare b = some q →
    x ∈ offsetsOf p → y ∈ offsetsOf q → x < y

/-- An offset below the end of the recovered bytes or below the installed frontier. -/
def Covered (s : RepairPartition) (offset : Nat) : Prop :=
  (∃ durable, s.recoveredDurableOffset = some durable ∧ offset < durable + 1) ∨
    ∃ frontier, s.installedFrontier = some frontier ∧ offset < frontier

/-- What comes before the last walk: nothing, a jump over ops whose messages are all covered, or the
walk of a refusal. -/
inductive Settles (ops : Ops) (refusal : Walk) (s : RepairPartition) : RepairPartition → Prop
  | stays : Settles ops refusal s s
  | jump {floor : Nat} (hraise : s.commitMin < floor)
      (hcovered : ∀ op ≤ floor, ∀ p, ops.prepare op = some p →
        ∀ offset ∈ offsetsOf p, s.Covered offset) :
      Settles ops refusal s { s with commitMin := floor }
  | walk (h : Walked s (s.commitJournal refusal)) : Settles ops refusal s (s.commitJournal refusal)

/-- `after` has the commit point that this leads to, with the last walk or without it. -/
def Advances (ops : Ops) (refusal final : Walk) (s after : RepairPartition) : Prop :=
  ∃ mid, Settles ops refusal s mid ∧ (after.commitMin = mid.commitMin ∨
    after.commitMin = (mid.commitJournal final).commitMin ∧ Walked mid (mid.commitJournal final))

variable {xxh3 : Bytes → UInt64} {ops : Ops} {refusal : Walk}

theorem covered_of_lt_standIn {bound offset : Nat} (hbound : s.standIn = some bound)
    (hlt : offset < bound) : s.Covered offset := by
  unfold standIn at hbound
  obtain heq | heq := Option.merge_eq_or_eq max_choice
    (s.recoveredDurableOffset.map fun durable => saturate (durable + 1)) s.installedFrontier
  · obtain ⟨durable, hd, rfl⟩ := Option.map_eq_some_iff.mp (heq ▸ hbound)
    exact .inl ⟨durable, hd, hlt.trans_le (min_le_left _ _)⟩
  · exact .inr ⟨bound, heq ▸ hbound, hlt⟩

theorem repairWindowAnchor_eq_some {floor commitToOp : Nat} {anchor : RepairAnchor}
    (h : s.repairWindowAnchor xxh3 floor commitToOp = some anchor) :
    ∃ p ∈ s.journal.entries, ∃ batch, floor < p.header.op ∧
      decodePrepareSliceTrusted p = some batch ∧ anchor.baseOffset = batch.header.baseOffset ∧
      ∃ q ∈ s.journal.entries, q.header.op = p.header.op ∧ q.header.operation = .sendMessages := by
  simp only [repairWindowAnchor, Option.bind_eq_bind, Option.bind_eq_some_iff,
    Option.guard_eq_some', exists_const] at h
  obtain ⟨-, p, hlowest, batch, hdecode, -, hanchor⟩ := h
  obtain ⟨hp, hfrom, hsend⟩ := ResidentJournal.lowestResidentSendIn_eq_some hlowest
  cases hanchor
  exact ⟨p, hp, batch, hfrom, hdecode, rfl, hsend⟩

/-- **The floor is below what stands in.** Where the anchor connects, every message of an op at or
below the floor is covered. -/
theorem covered_of_connected {floor commitToOp : Nat}
    (hresident : ∀ p ∈ s.journal.entries, s.commitMin < p.header.op →
      ops.prepare p.header.op = some p)
    (hraise : s.commitMin < floor)
    (hconnected : s.connected (s.repairWindowAnchor xxh3 floor commitToOp) = true) {op : Nat}
    (hop : op ≤ floor) {p : ResidentPrepare} (hprepare : ops.prepare op = some p) {offset : Nat}
    (hoffset : offset ∈ offsetsOf p) : s.Covered offset := by
  cases hanchor : s.repairWindowAnchor xxh3 floor commitToOp with
  | none => rw [hanchor] at hconnected; exact nomatch hconnected
  | some anchor =>
    obtain ⟨q, hq, batch, hfloor, hdecode, hbase, q', hq', hsame, hsend⟩ :=
      repairWindowAnchor_eq_some hanchor
    -- every copy of the op is the group's prepare
    have hgroup := hresident q hq (hraise.trans hfloor)
    have hgroup' := hresident q' hq' (hsame ▸ hraise.trans hfloor)
    rw [hsame] at hgroup'
    obtain rfl : q = q' := Option.some.inj (hgroup.symm.trans hgroup')
    have hbatch : residentBatch q = some batch := by rw [residentBatch, if_pos hsend, hdecode]
    have hfirst : batch.header.baseOffset ∈ offsetsOf q := by
      have hcount := ops.nonempty hgroup hbatch
      rw [offsetsOf, hbatch, mem_range'_1]
      omega
    have hlt := ops.increasing (hop.trans_lt hfloor) hprepare hgroup hoffset hfirst
    rw [← hbase] at hlt
    rw [hanchor] at hconnected
    cases hbound : s.standIn with
    | none =>
      simp only [connected, hbound, decide_eq_true_eq] at hconnected
      omega
    | some bound =>
      simp only [connected, hbound, decide_eq_true_eq] at hconnected
      exact covered_of_lt_standIn hbound (hlt.trans_le hconnected)

/-! ## The conclusion -/

/-- What a session that was walked to its end has. -/
def Fetched (session : RepairSession) (s : RepairPartition) : Prop :=
  session.commitToOp ≤ s.commitMin ∧
    ∀ op ≤ session.fetchToOp, op ≤ s.commitMin ∨ s.journal.holdsOp op = true

theorem fetched_concludeRepair (s : RepairPartition) (walk : Walk) (session : RepairSession)
    (h : (s.concludeRepair walk session).2 = .done) :
    Fetched session (s.concludeRepair walk session).1 := by
  revert h
  unfold concludeRepair
  dsimp only
  generalize s.commitJournal walk = next
  split
  case isTrue hdone =>
    refine fun _ => ⟨hdone.1, fun op hop => ?_⟩
    rw [Bool.or_eq_true, decide_eq_true_eq] at hdone
    obtain hshort | hshape := hdone.2
    · exact .inl (hop.trans (hshort.trans hdone.1))
    · rcases Nat.lt_or_ge next.commitMin op with hlt | hle
      · refine .inr (ResidentJournal.holdsOp_of_repairedWindowShape hshape ?_ hop)
        rw [Nat.max_eq_right hdone.1]
        exact hlt
      · exact .inl hle
  case isFalse => exact nofun

theorem advances_concludeRepair {mid : RepairPartition} (hsettles : Settles ops refusal s mid)
    (final : Walk) (session : RepairSession) :
    Advances ops refusal final s (mid.concludeRepair final session).1 := by
  refine ⟨mid, hsettles, .inr ⟨?_, walked_commitJournal mid final⟩⟩
  unfold concludeRepair
  dsimp only
  split <;> rfl

theorem settleFloor_spec {final : Walk} {session : RepairSession}
    (hresident : ∀ p ∈ s.journal.entries, s.commitMin < p.header.op →
      ops.prepare p.header.op = some p) :
    Advances ops refusal final s (s.settleFloor xxh3 refusal final session).1 ∧
      ((s.settleFloor xxh3 refusal final session).2 = .done →
        Fetched session (s.settleFloor xxh3 refusal final session).1) := by
  unfold settleFloor
  split
  case h_1 =>
    exact ⟨advances_concludeRepair .stays final session, fetched_concludeRepair s final session⟩
  case h_2 reported _ =>
    split
    · exact ⟨⟨s, .stays, .inl rfl⟩, nofun⟩
    dsimp only
    split
    case isTrue hconnected =>
      generalize hraised : (if s.commitMin < min reported s.commitMax then
        { s with commitMin := min reported s.commitMax } else s) = raised
      have hsettles : Settles ops refusal s raised := by
        rw [← hraised]
        split
        case isTrue hraise =>
          exact .jump hraise fun op hop p hp offset hoffset =>
            covered_of_connected hresident hraise hconnected hop hp hoffset
        case isFalse => exact .stays
      exact ⟨advances_concludeRepair hsettles final session,
        fetched_concludeRepair raised final session⟩
    case isFalse =>
      have hsettles : Settles ops refusal s (s.commitJournal refusal) :=
        .walk (walked_commitJournal s refusal)
      unfold refuseDisconnectedFloor
      dsimp only
      generalize s.commitJournal refusal = next at hsettles
      by_cases hmoot : session.floor.any (· ≤ next.commitMin) = true
      · rw [if_pos hmoot]
        exact ⟨advances_concludeRepair hsettles final session,
          fetched_concludeRepair next final session⟩
      · rw [if_neg hmoot]
        generalize (s.journal.repairedWindowShape (min reported s.commitMax) session.commitToOp ||
          next.repairLeadingEdgeResident _ _) = refused
        cases refused with
        | false => exact ⟨⟨next, hsettles, .inl rfl⟩, nofun⟩
        | true => exact ⟨⟨next, hsettles, .inl rfl⟩, nofun⟩

/-- **A repair floor skips no message.** The commit point is raised by at most one jump, over ops
whose messages the recovered bytes or the installed frontier all cover, and otherwise only by the two
walks through held ops; and a session of the replica's own view is done only when it is fetched. -/
theorem repair_floor_skips_no_message {historyBusy : Bool} {final : Walk}
    (hresident : ∀ p ∈ s.journal.entries, s.commitMin < p.header.op →
      ops.prepare p.header.op = some p) :
    Advances ops refusal final s (s.completeRepair xxh3 historyBusy refusal final).1 ∧
      ∀ session, s.repair = some session → s.normal = true → s.view = session.view →
        (s.completeRepair xxh3 historyBusy refusal final).2 = .done →
        Fetched session (s.completeRepair xxh3 historyBusy refusal final).1 := by
  unfold completeRepair
  split
  · exact ⟨⟨s, .stays, .inl rfl⟩, nofun⟩
  cases hrepair : s.repair with
  | none => exact ⟨⟨s, .stays, .inl rfl⟩, nofun⟩
  | some armed =>
    dsimp only
    split
    case isTrue hleft =>
      refine ⟨⟨s, .stays, .inl rfl⟩, fun session hsession hnormal hview _ => ?_⟩
      cases hsession
      exact absurd hleft (by simp [hnormal, hview])
    case isFalse =>
      obtain ⟨hadvances, hfetched⟩ := @settleFloor_spec s xxh3 ops refusal final { armed with
        floor := armed.floor.filter fun floor => !s.journal.repairedWindowShape s.commitMin floor }
        hresident
      refine ⟨hadvances, fun session hsession _ _ hdone => ?_⟩
      cases hsession
      exact hfetched hdone

/-! ## Concrete sessions -/

def emptyJournal : ResidentJournal := ⟨[], ⟨[], .nil⟩, 0, 0, 0, false⟩

/-- A session armed in view 1, on a replica that is in view 2 by now, is reported as done. -/
theorem left_session_is_done :
    ∃ (s : RepairPartition) (session : RepairSession) (walk : Walk), s.repair = some session ∧
      (s.completeRepair (fun _ => 0) false walk walk).2 = .done ∧
      (s.completeRepair (fun _ => 0) false walk walk).1.commitMin < session.commitToOp :=
  ⟨{ journal := emptyJournal, commitMin := 0, commitMax := 5, view := 2,
     repair := some ⟨1, 5, 5, none⟩ },
    ⟨1, 5, 5, none⟩, { published := 0, journal := emptyJournal }, by decide⟩

/-- A send whose one message has the offset `op - 3`. -/
def sendAt (op : Nat) : ResidentPrepare :=
  let blob := MessageHeader.encode ⟨0, 1, 0, 0, 0, 0⟩
  let body := Header.encode ⟨0, op - 3, 0, 0, Batch.headerSize + blob.length, 0, 1⟩ ++ blob
  ⟨{ op, operation := .sendMessages, size := Iggy.headerSize + body.length }, body⟩

/-- The peer evicted ops 1 to 4, the recovered bytes end at offset 1 and op 5 was served. -/
def behindFloor : RepairPartition where
  journal := emptyJournal.append (sendAt 5)
  commitMin := 0
  commitMax := 5
  view := 1
  recoveredDurableOffset := some 1
  repair := some ⟨1, 5, 5, some 4⟩

def sends : List ResidentPrepare := [sendAt 3, sendAt 4, sendAt 5]

/-- The group sent a message at each of the ops 3, 4 and 5. -/
def opsOfFive : Ops where
  prepare op := sends.find? (·.header.op = op)
  nonempty := by
    intro op p batch hp hbatch
    have hcount : ∀ p ∈ sends, (residentBatch p).all (·.header.messageCount = 1) = true := by
      decide +kernel
    have hone := hcount p (mem_of_find?_eq_some hp)
    simp only [hbatch, Option.all_some, decide_eq_true_eq] at hone
    omega
  increasing := by
    intro a b p q x y hlt hp hq hx hy
    have hoffsets : ∀ p ∈ sends, offsetsOf p = [p.header.op - 3] ∧ 3 ≤ p.header.op := by
      decide +kernel
    obtain ⟨hp', hap⟩ := hoffsets p (mem_of_find?_eq_some hp)
    obtain ⟨hq', hbq⟩ := hoffsets q (mem_of_find?_eq_some hq)
    have hpop := find?_some hp
    have hqop := find?_some hq
    simp only [hp', hq', mem_singleton, decide_eq_true_eq] at hx hy hpop hqop
    omega

theorem floor_of_four_skips_no_message :
    let walk : Walk := { published := 1, journal := emptyJournal }
    (behindFloor.completeRepair (fun _ => 0) false walk walk).2 = .done ∧
      (opsOfFive.prepare 3).map offsetsOf = some [0] ∧
      (opsOfFive.prepare 4).map offsetsOf = some [1] ∧
      Advances opsOfFive walk walk behindFloor
        (behindFloor.completeRepair (fun _ => 0) false walk walk).1 ∧
      Fetched ⟨1, 5, 5, some 4⟩ (behindFloor.completeRepair (fun _ => 0) false walk walk).1 := by
  intro walk
  have hdone : (behindFloor.completeRepair (fun _ => 0) false walk walk).2 = .done := by
    decide +kernel
  have hresident : ∀ p ∈ behindFloor.journal.entries, behindFloor.commitMin < p.header.op →
      opsOfFive.prepare p.header.op = some p := by
    intro p hp _
    obtain rfl : p = sendAt 5 := mem_singleton.mp hp
    rfl
  obtain ⟨hadvances, hfetched⟩ :=
    @repair_floor_skips_no_message behindFloor (fun _ => 0) opsOfFive walk false walk hresident
  exact ⟨hdone, by decide +kernel, by decide +kernel, hadvances, hfetched _ rfl rfl rfl hdone⟩

end RepairPartition

end Iggy
