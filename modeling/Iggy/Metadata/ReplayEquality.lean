import Iggy.Metadata.ApplyCommitted

/-!
# WAL replay equals live apply

Each arm of the replay does what the branch of the commit does, and stops where the commit would
have stopped the process. One place differs: a revocation on the live path reads the sessions it
ended back from the table by the end marker, the replay takes those that `end_user_sessions`
reports. They are the same unless a session already carries an end marker at the op
(`endedSessions_endUserSessions`), and no operation leaves a marker at an op other than its own
(`endedAt_of_applyPrepare`).
-/

namespace Iggy

open List Lib ClientTable PrepareJournal Option

/-! ## End markers -/

/-- A session of the table ended at `op`. -/
def ClientTable.EndedAt (t : ClientTable) (op : Nat) : Prop :=
  ∃ c e, t.find c = some e ∧ e.endedOp = some op

namespace ClientTable

variable {t t' : ClientTable} {op marker : Nat}

theorem endedAt_iff : t.EndedAt op ↔ ∃ identity ∈ t.endedSessions, identity.metadataWatermark = op := by
  simp only [EndedAt, endedSessions, mem_filterMap, map_eq_some_iff]
  constructor
  · rintro ⟨c, e, hfind, hended⟩
    exact ⟨_, ⟨e, (Slots.get_eq_some.mp hfind).1, op, hended, rfl⟩, rfl⟩
  · rintro ⟨-, ⟨e, he, ended, hended, rfl⟩, rfl⟩
    exact ⟨e.clientId, e, Slots.get_eq_some.mpr ⟨he, rfl⟩, hended⟩

variable {c : Nat}

theorem endedAt_update {f : ClientEntry → ClientEntry} {hf : ∀ e, (f e).clientId = e.clientId}
    (h : (t.update c f hf).EndedAt marker) :
    (∃ e, t.find c = some e ∧ (f e).endedOp = some marker) ∨ t.EndedAt marker := by
  obtain ⟨c', e', hfind, hended⟩ := h
  by_cases hc : c' = c
  · subst hc
    rw [find_update_self, map_eq_some_iff] at hfind
    obtain ⟨e, hfind, rfl⟩ := hfind
    exact .inl ⟨e, hfind, hended⟩
  · rw [find_update_of_ne hc] at hfind
    exact .inr ⟨c', e', hfind, hended⟩

variable {userId : Nat} {reply : CachedReply}

theorem endedAt_commitRegister {bindVerifier : Bytes}
    (hok : t.commitRegister c userId bindVerifier reply = .ok t') (h : t'.EndedAt marker) :
    t.EndedAt marker := by
  unfold commitRegister at hok
  split at hok
  · exact nomatch hok
  split at hok <;> split_ifs at hok <;> cases hok
  · exact h
  · obtain ⟨c', e, hfind, hended⟩ := h
    rw [find_add] at hfind
    split at hfind
    · cases hfind
      exact nomatch hended
    · exact ⟨c', e, hfind, hended⟩

theorem endedAt_commitReply {outcome : CommitReply}
    (hok : t.commitReply c userId reply = some (t', outcome)) (h : t'.EndedAt marker) :
    t.EndedAt marker := by
  unfold commitReply at hok
  split at hok
  · exact nomatch hok
  split at hok
  · cases hok
    exact h
  split at hok
  · cases hok
    exact h
  case h_2 entry hfind =>
    split at hok <;> cases hok
    · exact h
    · obtain ⟨e, he, hended⟩ | h := endedAt_update h
      · exact ⟨c, e, he, by rwa [ClientEntry.endedOp_cacheReply] at hended⟩
      · exact h

theorem endedAt_endSession {session : Nat}
    (h : (t.endSession c userId session op).1.EndedAt marker) : marker = op ∨ t.EndedAt marker := by
  unfold endSession at h
  split at h
  · exact .inr h
  · split at h
    · obtain ⟨e, -, hended⟩ | h := endedAt_update h
      · exact .inl (some.inj hended).symm
      · exact .inr h
    · exact .inr h

theorem endedAt_commitLogout {session : Nat} {ended : Bool}
    (hok : t.commitLogout c userId session reply = some (.ok (t', ended))) (h : t'.EndedAt marker) :
    marker = reply.commit ∨ t.EndedAt marker := by
  unfold commitLogout at hok
  split at hok
  · cases hok
    exact .inr h
  split at hok
  · cases hok
    exact .inr h
  split at hok
  · exact nomatch hok
  rename_i replied outcome hreply
  split at hok
  · exact nomatch hok
  have ht : (replied.endSession c userId session reply.commit).1 = t' :=
    congrArg Prod.fst (Except.ok.inj (some.inj hok))
  rw [← ht] at h
  exact (endedAt_endSession h).imp_right (endedAt_commitReply hreply)

theorem endedAt_finalizeSession {identity : SessionIdentity}
    (h : (t.finalizeSession identity).1.EndedAt marker) : t.EndedAt marker := by
  unfold finalizeSession forgetSession at h
  split at h
  · split at h
    · exact h
    · split at h
      · exact h
      · obtain ⟨c, e, hfind, hended⟩ := h
        simp only [find, Slots.get_erase] at hfind
        split_ifs at hfind
        exact ⟨c, e, hfind, hended⟩
  · exact h

theorem find_endUserSessions (c : Nat) :
    (t.endUserSessions userId op).1.find c = (t.find c).map (·.revoke userId op) :=
  Slots.get_map (ClientEntry.clientId_revoke · userId op) c

theorem endedAt_endUserSessions (h : (t.endUserSessions userId op).1.EndedAt marker) :
    marker = op ∨ t.EndedAt marker := by
  obtain ⟨c, e', hfind, hended⟩ := h
  rw [find_endUserSessions, map_eq_some_iff] at hfind
  obtain ⟨e, hfind, rfl⟩ := hfind
  unfold ClientEntry.revoke at hended
  split at hended
  · exact .inl (some.inj hended).symm
  · exact .inr ⟨c, e, hfind, hended⟩

/-- **What a revocation ends**, unless a session carried the marker before. -/
theorem endedSessions_endUserSessions (hfresh : ¬ t.EndedAt op) :
    ((t.endUserSessions userId op).1.endedSessions.filter fun identity =>
        identity.metadataWatermark = op ∧
          ((t.endUserSessions userId op).1.find identity.clientId).map ClientEntry.userId =
            some userId) = (t.endUserSessions userId op).2 := by
  have hfind : ∀ e ∈ t.slots.entries, t.find e.clientId = some e := fun e he =>
    Slots.get_eq_some.mpr ⟨he, rfl⟩
  have hentries : (t.endUserSessions userId op).1.slots.entries =
      t.slots.entries.map (·.revoke userId op) := reduceOption_map
  have hmap : (t.endUserSessions userId op).2 =
      (t.slots.entries.filter fun entry => entry.userId = userId ∧ entry.endedOp = none).map
        fun entry => ⟨entry.clientId, entry.epoch, op⟩ := rfl
  simp only [find_endUserSessions, endedSessions]
  rw [hentries, hmap, filterMap_map, filter_filterMap, ← filterMap_eq_map, filterMap_filter]
  refine filterMap_congr fun e he => ?_
  by_cases hrevoked : e.userId = userId ∧ e.endedOp = none
  · simp [ClientEntry.revoke, ClientEntry.endAt, hrevoked, hfind e he]
  · -- a marker the entry had before is at another op
    have hold : e.endedOp ≠ some op := fun hended => hfresh ⟨e.clientId, e, hfind e he, hended⟩
    cases hended : e.endedOp with
    | none =>
      have huser : e.userId ≠ userId := fun h => hrevoked ⟨h, hended⟩
      simp [ClientEntry.revoke, hended, huser]
    | some ended =>
      have hne : ended ≠ op := fun h => hold (h ▸ hended)
      simp [ClientEntry.revoke, hended, hne]

end ClientTable

/-! ## Steps of the two paths -/

section Steps

variable {ε α : Type} {x : Except ε α} {o : Option α} {a : α}

@[simp] theorem orFatal_eq_ok {fatal : ε → FatalCommit} : orFatal fatal x = .ok a ↔ x = .ok a := by
  cases x <;> simp [orFatal]

@[simp] theorem someOrFatal_eq_ok {fatal : FatalCommit} :
    someOrFatal fatal o = .ok a ↔ o = some a := by
  cases o <;> simp [someOrFatal]

@[simp] theorem orRecovery_eq_ok {recovery : ε → RecoveryError} :
    orRecovery recovery x = .ok a ↔ x = .ok a := by
  cases x <;> simp [orRecovery]

@[simp] theorem someOrRecovery_eq_ok {recovery : RecoveryError} :
    someOrRecovery recovery o = .ok a ↔ o = some a := by
  cases o <;> simp [someOrRecovery]

end Steps

section Arms

variable {υ σ : Type} {F : Frontend υ σ} {s : MetadataState υ σ} {applied : ApplyState υ σ}
  {committed : CommittedApply} {log : ChangeLog} {m : Message} {entryAt : PrepareHeader → Option Message}

def MetadataState.toApply (s : MetadataState υ σ) : ApplyState υ σ :=
  ⟨s.users, s.streams, s.clientTable⟩

def ApplyState.withLog (applied : ApplyState υ σ) (log : ChangeLog) : MetadataState υ σ :=
  ⟨applied.users, applied.streams, applied.clientTable, log⟩

variable {s' : MetadataState υ σ} {header : PrepareHeader}

theorem record_eq_ok {s : MetadataState υ σ} {changes : List AppliedChange} :
    record s header changes = .ok s' ↔
      ∃ log, s.changeLog.append header changes = .ok log ∧ s' = { s with changeLog := log } := by
  simp only [record, bind_eq_ok, orRecovery_eq_ok]
  refine exists_congr fun log => and_congr_right fun _ => ?_
  exact ⟨fun h => (Except.ok.inj h).symm, fun h => h ▸ rfl⟩

theorem replayRegister_of_applyRegister (hentry : entryAt m.header = some m)
    (h : applyRegister F true s.toApply m = .ok (applied, committed))
    (hlog : s.changeLog.append m.header committed.changes = .ok log) :
    replayRegister F entryAt s m.header = .ok (applied.withLog log) := by
  simp only [applyRegister, bind_eq_ok, someOrFatal_eq_ok] at h
  obtain ⟨registration, hdecode, h⟩ := h
  simp only [replayRegister, bind_eq_ok, someOrRecovery_eq_ok]
  refine ⟨m, hentry, registration, hdecode, ?_⟩
  split at h
  case isTrue hactive =>
    obtain ⟨clientTable, hregister, hret⟩ := bind_eq_ok.mp h
    obtain ⟨table, htable, rfl⟩ := map_eq_ok.mp (orFatal_eq_ok.mp hregister)
    cases hret
    rw [if_neg (not_not.mpr (show F.isActiveAccount s.users _ _ from hactive)), bind_eq_ok]
    exact ⟨table, orRecovery_eq_ok.mpr htable, record_eq_ok.mpr ⟨log, hlog, rfl⟩⟩
  case isFalse hinactive =>
    cases h
    rw [if_pos (show ¬ F.isActiveAccount s.users _ _ from hinactive)]
    exact record_eq_ok.mpr ⟨log, hlog, rfl⟩

theorem replayLogout_of_applyLogout (h : applyLogout F true s.toApply m = .ok (applied, committed))
    (hlog : s.changeLog.append m.header committed.changes = .ok log) :
    replayLogout F s m.header = .ok (applied.withLog log) := by
  simp only [applyLogout, logoutSession, bind_eq_ok, if_true, someOrFatal_eq_ok, orFatal_eq_ok] at h
  obtain ⟨⟨clientTable, ended⟩, ⟨outcome, houtcome, hlogout⟩, h⟩ := h
  simp only [replayLogout, bind_eq_ok, someOrRecovery_eq_ok, orRecovery_eq_ok]
  refine ⟨outcome, houtcome, (clientTable, ended), hlogout, ?_⟩
  cases ended with
  | true =>
    cases h
    exact record_eq_ok.mpr ⟨log, hlog, rfl⟩
  | false =>
    cases h
    exact record_eq_ok.mpr ⟨log, hlog, rfl⟩

theorem replayFinalizeSession_of_applyFinalizeSession (hentry : entryAt m.header = some m)
    (h : applyFinalizeSession F true s.toApply m = .ok (applied, committed))
    (hlog : s.changeLog.append m.header committed.changes = .ok log) :
    replayFinalizeSession F entryAt s m.header = .ok (applied.withLog log) := by
  simp only [applyFinalizeSession, bind_eq_ok, someOrFatal_eq_ok, true_and] at h
  obtain ⟨request, hdecode, h⟩ := h
  simp only [replayFinalizeSession, bind_eq_ok, someOrRecovery_eq_ok]
  refine ⟨m, hentry, request, hdecode, ?_⟩
  split at h
  case isTrue hrevision =>
    cases h
    rw [if_pos (show F.namespaceRevision s.streams = _ from hrevision)]
    exact record_eq_ok.mpr ⟨log, hlog, rfl⟩
  case isFalse hrevision =>
    cases h
    rw [if_neg (show ¬ F.namespaceRevision s.streams = _ from hrevision)]
    exact record_eq_ok.mpr ⟨log, hlog, rfl⟩

theorem replayRevocation_eq {user : UserKey} (hfresh : ¬ s.clientTable.table.EndedAt header.op) :
    replayRevocation F user header s =
      ((applyUserRevocation F true user header s.toApply).1.withLog s.changeLog,
        (applyUserRevocation F true user header s.toApply).2) := by
  have hsessions := @endedSessions_endUserSessions _ _ user.userId hfresh
  simp only [replayRevocation, applyUserRevocation, MetadataState.toApply, ApplyState.withLog,
    if_true, MetadataTable.getUserId, hsessions]

theorem restoreReceipt_of_retainReceipt {t t' : MetadataTable} {reply : CachedReply}
    (h : retainReceipt true t header reply = .ok t') : restoreReceipt t header reply = .ok t' := by
  simp only [retainReceipt, Bool.true_and] at h
  unfold restoreReceipt
  by_cases hkeeps : keepsReceipt header
  · rw [if_pos hkeeps] at h
    rw [if_pos hkeeps]
    simp only [bind_eq_ok, someOrFatal_eq_ok] at h
    obtain ⟨⟨retained, outcome⟩, hreply, u, hlogged, hret⟩ := h
    cases hret
    simp only [bind_eq_ok, someOrRecovery_eq_ok]
    refine ⟨_, hreply, ?_⟩
    -- the outcomes the live path survives are those the replay accepts
    cases outcome with
    | cached => rfl
    | sessionEnded endedOp => rfl
    | noEntry => cases hlogged
    | skippedRegression stored received => cases hlogged
  · rw [if_neg hkeeps] at h
    rw [if_neg hkeeps]
    cases h
    rfl

theorem replayOperation_of_applyOperation (hentry : entryAt m.header = some m)
    (hfresh : ¬ s.clientTable.table.EndedAt m.header.op)
    (h : applyOperation F true s.toApply m = .ok (applied, committed))
    (hlog : s.changeLog.append m.header committed.changes = .ok log) :
    replayOperation F entryAt s m.header = .ok (applied.withLog log) := by
  simp only [applyOperation, MetadataState.toApply, bind_eq_ok, orFatal_eq_ok] at h
  obtain ⟨⟨users, streams, apply⟩, hgated, clientTable, hreceipt, hret⟩ := h
  simp only [replayOperation, bind_eq_ok, someOrRecovery_eq_ok, orRecovery_eq_ok]
  refine ⟨m, hentry, (users, streams, apply), hgated, clientTable, ?_⟩
  cases hrevoked : apply.revokedUser with
  | none =>
    simp only [hrevoked] at hreceipt hret ⊢
    cases hret
    exact ⟨restoreReceipt_of_retainReceipt hreceipt, record_eq_ok.mpr ⟨log, hlog, rfl⟩⟩
  | some user =>
    have heq := @replayRevocation_eq _ _ F { s with users, streams } m.header user hfresh
    simp only [hrevoked] at hreceipt hret ⊢
    cases hret
    rw [heq]
    exact ⟨restoreReceipt_of_retainReceipt hreceipt, record_eq_ok.mpr ⟨log, hlog, rfl⟩⟩

/-! ## One prepare -/

theorem endedAt_commitCapacity {t t' : MetadataTable} {capacity marker : Nat}
    (hok : t.commitCapacity capacity = .ok t') :
    t'.table.EndedAt marker ↔ t.table.EndedAt marker := by
  unfold MetadataTable.commitCapacity at hok
  split_ifs at hok
  cases hok
  exact Iff.rfl

theorem applyPrepare_eq_ok (h : applyPrepare F s m = .ok s') :
    ∃ clientTable applied committed log,
      s.clientTable.commitCapacity m.header.retryCapacity = .ok clientTable ∧
      (match m.header.operation with
        | .register => applyRegister F true ({ s with clientTable }).toApply m
        | .logout => applyLogout F true ({ s with clientTable }).toApply m
        | .finalizeSession => applyFinalizeSession F true ({ s with clientTable }).toApply m
        | _ => applyOperation F true ({ s with clientTable }).toApply m) =
          .ok (applied, committed) ∧
      s.changeLog.append m.header committed.changes = .ok log ∧ s' = applied.withLog log := by
  simp only [applyPrepare, applyCommittedPrepare, commitRetryCapacity, if_true, bind_eq_ok,
    orFatal_eq_ok] at h
  obtain ⟨⟨applied, committed⟩, ⟨clientTable, hcapacity, harm⟩, log, hlog, hret⟩ := h
  cases hret
  exact ⟨clientTable, applied, committed, log, hcapacity, harm, hlog, rfl⟩

/-- **One prepare.** -/
theorem replayPrepare_of_applyPrepare {commitWatermark : Nat} (hentry : entryAt m.header = some m)
    (hcommitted : m.header.op ≤ commitWatermark)
    (hfresh : ¬ s.clientTable.table.EndedAt m.header.op) (h : applyPrepare F s m = .ok s') :
    replayPrepare F entryAt commitWatermark s m.header = .ok s' := by
  obtain ⟨clientTable, applied, committed, log, hcapacity, harm, hlog, rfl⟩ := applyPrepare_eq_ok h
  have hfresh' : ¬ clientTable.table.EndedAt m.header.op :=
    (endedAt_commitCapacity hcapacity).not.mpr hfresh
  unfold replayPrepare
  rw [if_neg (not_lt.mpr hcommitted)]
  refine bind_eq_ok.mpr ⟨clientTable, orRecovery_eq_ok.mpr hcapacity, ?_⟩
  generalize m.header.operation = operation at harm ⊢
  cases operation with
  | register => exact replayRegister_of_applyRegister hentry harm hlog
  | logout => exact replayLogout_of_applyLogout harm hlog
  | finalizeSession => exact replayFinalizeSession_of_applyFinalizeSession hentry harm hlog
  | _ => exact replayOperation_of_applyOperation hentry hfresh' harm hlog

section Markers

variable {marker : Nat} {a : ApplyState υ σ}

theorem endedAt_applyRegister (h : applyRegister F true a m = .ok (applied, committed))
    (hended : applied.clientTable.table.EndedAt marker) : a.clientTable.table.EndedAt marker := by
  simp only [applyRegister, bind_eq_ok, someOrFatal_eq_ok] at h
  obtain ⟨registration, -, h⟩ := h
  split at h
  · obtain ⟨clientTable, hregister, hret⟩ := bind_eq_ok.mp h
    obtain ⟨table, htable, rfl⟩ := map_eq_ok.mp (orFatal_eq_ok.mp hregister)
    cases hret
    exact endedAt_commitRegister htable hended
  · cases h
    exact hended

theorem endedAt_applyLogout (h : applyLogout F true a m = .ok (applied, committed))
    (hended : applied.clientTable.table.EndedAt marker) :
    marker = m.header.op ∨ a.clientTable.table.EndedAt marker := by
  simp only [applyLogout, logoutSession, bind_eq_ok, if_true, someOrFatal_eq_ok,
    orFatal_eq_ok, MetadataTable.commitLogout, map_eq_some_iff] at h
  obtain ⟨⟨clientTable, ended⟩, ⟨-, ⟨outcome, houtcome, rfl⟩, hlogout⟩, h⟩ := h
  obtain ⟨⟨table, ended⟩, rfl, hret⟩ := map_eq_ok.mp hlogout
  cases hret
  have happlied : applied.clientTable.table = table := by
    cases ended <;> cases h <;> rfl
  rw [happlied] at hended
  exact endedAt_commitLogout houtcome hended

theorem endedAt_applyFinalizeSession
    (h : applyFinalizeSession F true a m = .ok (applied, committed))
    (hended : applied.clientTable.table.EndedAt marker) : a.clientTable.table.EndedAt marker := by
  simp only [applyFinalizeSession, bind_eq_ok, someOrFatal_eq_ok, true_and] at h
  obtain ⟨request, -, h⟩ := h
  split at h <;> cases h
  · exact endedAt_finalizeSession hended
  · exact hended

theorem endedAt_retainReceipt {t t' : MetadataTable} {header : PrepareHeader} {reply : CachedReply}
    (h : retainReceipt true t header reply = .ok t') (hended : t'.table.EndedAt marker) :
    t.table.EndedAt marker := by
  unfold retainReceipt at h
  split at h
  · simp only [bind_eq_ok, someOrFatal_eq_ok, MetadataTable.commitReply, map_eq_some_iff] at h
    obtain ⟨-, ⟨⟨table, outcome⟩, hreply, rfl⟩, -, -, hret⟩ := h
    cases hret
    exact endedAt_commitReply hreply hended
  · cases h
    exact hended

theorem endedAt_applyOperation (h : applyOperation F true a m = .ok (applied, committed))
    (hended : applied.clientTable.table.EndedAt marker) :
    marker = m.header.op ∨ a.clientTable.table.EndedAt marker := by
  simp only [applyOperation, bind_eq_ok, orFatal_eq_ok] at h
  obtain ⟨⟨users, streams, apply⟩, -, clientTable, hreceipt, hret⟩ := h
  cases hret
  have hbefore := endedAt_retainReceipt hreceipt hended
  cases hrevoked : apply.revokedUser with
  | none =>
    simp only [hrevoked] at hbefore
    exact .inr hbefore
  | some user =>
    simp only [hrevoked] at hbefore
    exact endedAt_endUserSessions hbefore

/-- **No marker but its own.** A session ended after a prepare ended at its op or before it. -/
theorem endedAt_of_applyPrepare {s' : MetadataState υ σ} (h : applyPrepare F s m = .ok s')
    (hended : s'.clientTable.table.EndedAt marker) :
    marker = m.header.op ∨ s.clientTable.table.EndedAt marker := by
  obtain ⟨clientTable, applied, committed, log, hcapacity, harm, -, rfl⟩ := applyPrepare_eq_ok h
  have hbranch : marker = m.header.op ∨ clientTable.table.EndedAt marker := by
    split at harm
    · exact .inr (endedAt_applyRegister harm hended)
    · exact endedAt_applyLogout harm hended
    · exact .inr (endedAt_applyFinalizeSession harm hended)
    · exact endedAt_applyOperation harm hended
  exact hbranch.imp_right (endedAt_commitCapacity hcapacity).mp

end Markers

/-! ## A run -/

/-- **WAL replay equals live apply.** -/
theorem wal_replay_eq_live {prepares : List Message} {s' : MetadataState υ σ}
    {commitWatermark : Nat}
    (hops : prepares.Pairwise fun m m' => m.header.op < m'.header.op)
    (hentries : ∀ m ∈ prepares, entryAt m.header = some m)
    (hcommitted : ∀ m ∈ prepares, m.header.op ≤ commitWatermark)
    (hfresh : ∀ m ∈ prepares, ∀ identity ∈ s.clientTable.table.endedSessions,
      identity.metadataWatermark ≠ m.header.op)
    (hlive : applyAll F s prepares = .ok s') :
    replay F entryAt commitWatermark s (prepares.map Message.header) = .ok s' := by
  have hfresh' : ∀ m ∈ prepares, ¬ s.clientTable.table.EndedAt m.header.op := by
    intro m hm hended
    obtain ⟨identity, hidentity, hop⟩ := endedAt_iff.mp hended
    exact hfresh m hm identity hidentity hop
  clear hfresh
  -- the markers of the ops already applied are below those still to come
  induction prepares generalizing s with
  | nil =>
    cases hlive
    rfl
  | cons m prepares ih =>
    obtain ⟨hlt, hops⟩ := pairwise_cons.mp hops
    obtain ⟨s₁, hstep, hrest⟩ := bind_eq_ok.mp ((foldlM_cons ..).symm.trans hlive)
    refine (foldlM_cons ..).trans (bind_eq_ok.mpr ⟨s₁, ?_, ?_⟩)
    · exact replayPrepare_of_applyPrepare (hentries m mem_cons_self)
        (hcommitted m mem_cons_self) (hfresh' m mem_cons_self) hstep
    · refine ih hops (fun m' hm' => hentries m' (mem_cons_of_mem _ hm'))
        (fun m' hm' => hcommitted m' (mem_cons_of_mem _ hm')) hrest fun m' hm' hended => ?_
      obtain hop | hended := endedAt_of_applyPrepare hstep hended
      · exact absurd hop (Nat.ne_of_gt (hlt m' hm'))
      · exact hfresh' m' (mem_cons_of_mem _ hm') hended

end Arms

/-! ### Two runs -/

/-- State machines without state, in which `DeleteUser` revokes user 7. -/
def revokingFrontend : Frontend Unit Unit where
  isActiveAccount _ _ _ := true
  userKey _ userId := some ⟨userId, 0⟩
  authorize _ _ _ := none
  rejectDanglingGrant _ _ _ := none
  update _ _ m :=
    let revokedUser : Option UserKey := if m.header.operation = .deleteUser then some ⟨7, 0⟩ else none
    .ok ((), (), { revokedUser })
  removeGrants _ _ _ _ _ := ((), [])
  namespaceRevision _ := 0
  consumerGroupSession _ _ := none
  refreshConsumerGroupSession _ _ _ _ _ _ := ((), [])
  removeConsumerGroupMembers _ _ _ _ _ := ((), [])

/-- An operation of the server itself, or of a client's session. -/
def metadataHeader (operation : Operation) (op client request session userId : Nat) :
    PrepareHeader :=
  { size := headerSize, command := .prepare, operation, op, client, request, session, userId,
    retryCapacity := 4 }

/-- Client 1 logs out. -/
def logoutPrepare : Message :=
  bodiless (metadataHeader .logout 4 1 1 1 7) (by decide +kernel) rfl rfl

/-- The server deletes user 7. -/
def deleteUserPrepare : Message :=
  bodiless (metadataHeader .deleteUser 5 0 0 0 0) (by decide +kernel) rfl rfl

/-- A session of user 7, registered at op `client`. -/
def userSession (client : Nat) : ClientEntry :=
  .registered client 7 [] ⟨client, 0, client, .register, [], {}⟩

/-- A state with the sessions `e` and of client 2. -/
def twoSessions (e : ClientEntry) (h : e.clientId = 1) : MetadataState Unit Unit where
  users := ()
  streams := ()
  clientTable :=
    { table := ⟨⟨[some e, some (userSession 2)], by simp [List.reduceOption, h, userSession,
        ClientEntry.registered]⟩, 4, .metadata⟩
      capacityCommitted := true }
  changeLog := { resource := { capacity := 8 }, activity := { capacity := 8 } }

/-- **A marker at a later op.** The session of client 1 carries the end marker of the op that
deletes its user. The live path closes it once more in the change log, the replay does not. -/
theorem marker_ahead_replays_differently :
    ∃ live replayed,
      applyAll revokingFrontend (twoSessions ((userSession 1).endAt 5) rfl) [deleteUserPrepare] =
        .ok live ∧
      replay revokingFrontend (fun _ => some deleteUserPrepare) 5
        (twoSessions ((userSession 1).endAt 5) rfl) [deleteUserPrepare.header] = .ok replayed ∧
      live.changeLog ≠ replayed.changeLog := by
  have hlive : ((applyAll revokingFrontend (twoSessions ((userSession 1).endAt 5) rfl)
      [deleteUserPrepare]).map fun s => s.changeLog.activity.entries.length) = .ok 2 := by
    decide +kernel
  have hreplay : ((replay revokingFrontend (fun _ => some deleteUserPrepare) 5
      (twoSessions ((userSession 1).endAt 5) rfl) [deleteUserPrepare.header]).map
        fun s => s.changeLog.activity.entries.length) = .ok 1 := by
    decide +kernel
  obtain ⟨live, hl, hlivelen⟩ := map_eq_ok.mp hlive
  obtain ⟨replayed, hr, hreplaylen⟩ := map_eq_ok.mp hreplay
  refine ⟨live, replayed, hl, hr, fun heq => ?_⟩
  rw [heq] at hlivelen
  exact absurd (hlivelen.symm.trans hreplaylen) (by decide)

/-- Client 1 logs out, then its user is deleted: two sessions close, one by each op. -/
theorem replay_after_logout_and_delete :
    ∃ s', applyAll revokingFrontend (twoSessions (userSession 1) rfl)
        [logoutPrepare, deleteUserPrepare] = .ok s' ∧
      s'.changeLog.activity.entries.map ChangeEntry.op = [4, 5] ∧
      replay revokingFrontend
        (fun header => if header.op = 4 then some logoutPrepare else some deleteUserPrepare) 5
        (twoSessions (userSession 1) rfl) [logoutPrepare.header, deleteUserPrepare.header] =
          .ok s' := by
  have hrun : ((applyAll revokingFrontend (twoSessions (userSession 1) rfl)
      [logoutPrepare, deleteUserPrepare]).map fun s =>
        s.changeLog.activity.entries.map ChangeEntry.op) = .ok [4, 5] := by decide +kernel
  obtain ⟨s', hlive, hlog⟩ := map_eq_ok.mp hrun
  refine ⟨s', hlive, hlog, wal_replay_eq_live ?_ ?_ ?_ ?_ hlive⟩
  · simp [logoutPrepare, deleteUserPrepare, bodiless, metadataHeader]
  · simp [logoutPrepare, deleteUserPrepare, bodiless, metadataHeader]
  · simp [logoutPrepare, deleteUserPrepare, bodiless, metadataHeader]
  · intro m _ identity hidentity
    have hnone : (twoSessions (userSession 1) rfl).clientTable.table.endedSessions = [] := by
      decide +kernel
    rw [hnone] at hidentity
    cases hidentity

end Iggy
