import Iggy.Consensus.TableRestore

/-!
# Any number of restarts

A replica comes back from its checkpoint or from the table a peer sent, goes on, and comes back
again. `live` is such a run, and what each of its restarts leaves behind adds up (`Restored.trans`).
-/

namespace Iggy

open List ClientEntry

theorem ClientEntry.Kept.trans {lost lost' : List CachedReply} {e e' e'' : ClientEntry}
    (h : Kept lost e e') (h' : Kept lost' e' e'') : Kept (lost ++ lost') e e'' := by
  obtain ⟨old, hring, hold⟩ := h.ring
  obtain ⟨old', hring', hold'⟩ := h'.ring
  exact ⟨h'.bindVerifier.trans h.bindVerifier, h'.endedOp.trans h.endedOp, h'.epoch.trans h.epoch,
    h'.userId.trans h.userId, h'.watermark.trans h.watermark, h'.clientId.trans h.clientId,
    h'.latestCommit.trans h.latestCommit, old ++ old', by rw [hring, hring', append_assoc],
    fun r hr => mem_append.mpr ((mem_append.mp hr).imp (hold r) (hold' r))⟩

namespace TableRun

/-- What happens to a replica's table. -/
inductive TableEvent
  | op (op : TableOp)
  | restart (form : TableForm)

def committed : List TableEvent → List TableOp
  | [] => []
  | .op op :: events => op :: committed events
  | .restart _ :: events => committed events

variable (xxh3 : Bytes → UInt64)

/-- The results of its operations and the table at the end; `none` where a restart does not read its
form back. -/
def live (s : TableRun) : List TableEvent → Option (List OpResult × TableRun)
  | [] => some ([], s)
  | .op op :: events =>
    (live (s.stepOp op) events).map fun (results, t) => (s.result op :: results, t)
  | .restart form :: events =>
    (form.restore xxh3 s.table).bind fun t => live ⟨t, s.lastOp, s.revoking⟩ events

def leftBehind (s : TableRun) : List TableEvent → Nat → List CachedReply
  | [], _ => []
  | .op op :: events, clientId => leftBehind (s.stepOp op) events clientId
  | .restart form :: events, clientId =>
    form.lost s.table clientId ++ ((form.restore xxh3 s.table).map fun t =>
      leftBehind ⟨t, s.lastOp, s.revoking⟩ events clientId).getD []

variable {lost lost' : Nat → List CachedReply} {s s' s'' : TableRun}

theorem Restored.trans (h : Restored lost s s') (h' : Restored lost' s' s'') :
    Restored (fun clientId => lost clientId ++ lost' clientId) s s'' := by
  refine ⟨h.left, h'.right, ⟨fun clientId => ?_, h.find.capacity.trans h'.find.capacity⟩,
    h.lastOp.trans h'.lastOp, h.revoking.trans h'.revoking⟩
  have hrel := h'.find.rel clientId
  obtain ⟨hfind, hfind'⟩ | ⟨e, e', hfind, hfind', hkept⟩ := h.find.find clientId
  all_goals
    rw [hfind'] at hrel
    rw [hfind]
    generalize s''.table.find clientId = found at hrel ⊢
    cases hrel
  · exact .none
  · exact .some (hkept.trans ‹_›)

theorem Restored.live {events : List TableEvent} (h : Restored lost s s')
    (hops : s.AdmissibleOps (committed events)) :
    ∃ results final, TableRun.live xxh3 s' events = some (results, final) ∧
      List.Forall₂ SameResult (s.results (committed events)) results ∧
      Restored (fun clientId => lost clientId ++ leftBehind xxh3 s' events clientId)
        (s.runOps (committed events)) final := by
  induction events generalizing s s' lost with
  | nil => exact ⟨[], s', rfl, .nil, by simp only [leftBehind, append_nil]; exact h⟩
  | cons event events ih =>
    cases event with
    | op op =>
      obtain ⟨hresult, hnext⟩ := h.stepOp hops.1
      obtain ⟨results, final, hlive, hresults, hfinal⟩ := ih hnext hops.2
      exact ⟨_, final, by rw [TableRun.live, hlive]; rfl, .cons hresult hresults, hfinal⟩
    | restart form =>
      obtain ⟨t, hrestore, hnext⟩ := h.right.restore xxh3 form
      obtain ⟨results, final, hlive, hresults, hfinal⟩ := ih (h.trans hnext) hops
      refine ⟨results, final, by rw [TableRun.live, hrestore]; exact hlive, hresults, ?_⟩
      simp only [append_assoc] at hfinal
      simp only [leftBehind, hrestore]
      exact hfinal

/-- **However often a replica restarts**, each restart reads its form back, the operations have the
results they have without restarts, the lists of ended sessions in another order at most, and an
answer differs only for a reply that a restart left behind. A request that was applied is never new
again. -/
theorem restarts_forget_only_replies (hs : s.Reachable) (events : List TableEvent)
    (hops : s.AdmissibleOps (committed events)) :
    ∃ results final, live xxh3 s events = some (results, final) ∧
      List.Forall₂ SameResult (s.results (committed events)) results ∧
      ∀ clientId epoch request operation,
        Option.Rel (Forgets (leftBehind xxh3 s events clientId) request)
          ((s.runOps (committed events)).table.checkRequest clientId epoch request operation)
          (final.table.checkRequest clientId epoch request operation) := by
  have hself : Restored (fun _ => []) s s := by
    refine ⟨hs.alike, hs.alike, ⟨fun clientId => ?_, rfl⟩, rfl, rfl⟩
    cases s.table.find clientId with
    | none => exact .none
    | some e => exact .some (kept_refl [] e)
  obtain ⟨results, final, hlive, hresults, hfinal⟩ := hself.live xxh3 hops
  exact ⟨results, final, hlive, hresults, hfinal.find.checkRequest hfinal.left.safe⟩

/-- A registration, a reply and the end of a user's sessions, with a restart from the wire form before
them and one from a checkpoint in their middle. -/
def restartedLife : List TableEvent :=
  .restart .wire :: (laterOps.take 2).map .op ++ .restart .checkpoint :: (laterOps.drop 2).map .op

theorem finalized_table_restarts_twice :
    ∃ results final, live (fun _ => 0) finalizedFirst restartedLife = some (results, final) ∧
      List.Forall₂ SameResult (finalizedFirst.results laterOps) results ∧
      Option.Rel (Forgets (leftBehind (fun _ => 0) finalizedFirst restartedLife 2) 1)
        ((finalizedFirst.runOps laterOps).table.checkRequest 2 2 1 .createUser)
        (final.table.checkRequest 2 2 1 .createUser) := by
  obtain ⟨results, final, hlive, hresults, hanswers⟩ := restarts_forget_only_replies (fun _ => 0)
    reachable_finalizedFirst restartedLife admissible_laterOps
  exact ⟨results, final, hlive, hresults, hanswers 2 2 1 .createUser⟩

end TableRun

end Iggy
