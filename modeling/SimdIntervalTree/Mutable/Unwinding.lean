import SimdIntervalTree.Model.Unwinding
import SimdIntervalTree.Mutable.Faults
import SimdIntervalTree.Mutable.Refinement

/-!
# A set that survives panics

A reversed range costs a generation and nothing else. If the builder refuses to rebuild a set with
too many intervals, the call has already done its work. So a client that catches panics still has a
map, which `SetAttempt` describes.

Of the invariant of the set, a panic spares `Survives`.
-/

namespace SimdIntervalTree

open Exec IntervalTreeBuilder

variable {T V : Type} [LinearOrder T]

/-! ## The abstract set -/

namespace IntervalSet

/-- The call that a request makes, unless its range is reversed. -/
def Request.call : Request T V → Option (Op T V)
  | .insert range value => range.into.toOption.map (.insert · value)
  | .remove id => some (.remove id)
  | .clear => some .clear
  | .get id => some (.get id)
  | .getInterval id => some (.getInterval id)
  | .iter => some .iter
  | .len => some .len
  | .query range => range.into.toOption.map .query

/-- The requests that take a generation. -/
def Request.inserts (requests : List (Request T V)) : Nat :=
  requests.countP fun
    | .insert .. => true
    | _ => false

end IntervalSet

/-- A request, what comes of it and what it does to the map. -/
inductive SetAttempt : Registry IntervalId (Interval T × V) → IntervalSet.Request T V →
    Exec (IntervalSet.Output T V) → Registry IntervalId (Interval T × V) → Prop
  | returned : request.call = some call → SetStep m call result m' →
    SetAttempt m request (.ok result) m'
  | reversed : request.call = none → SetAttempt m request (.error .assertion) m
  | insertFull {id : IntervalId} : request.call = some (.insert range value) → id ∉ m.issued →
    SIZE_LIMIT ≤ (m.register id (range, value)).len →
    SetAttempt m request (.error .assertion) (m.register id (range, value))
  | removeFull {id : IntervalId} : id ∈ m.live → SIZE_LIMIT ≤ (m.erase id).len →
    SetAttempt m (.remove id) (.error .assertion) (m.erase id)

namespace IntervalSet

variable {s s' : IntervalSet T V} {sorts : Sorts T IntervalId} {id : IntervalId} {e : Entry T V}
  {range : Interval T} {value : V} {m : Registry IntervalId (Interval T × V)} {n : Nat}

namespace Survives

/-- A reversed range costs a generation. -/
theorem reversed (h : Survives n s m) :
    Survives (n + 1) { s with nextGeneration := s.nextGeneration + 1 } m where
  mirrors := { h.mirrors with
    slots := { h.mirrors.slots with }
    index := { h.mirrors.index with } }
  nextGeneration := by
    rw [h.nextGeneration, UInt32.ofNat_add]
    rfl
  length_le := h.length_le.trans (Nat.le_succ n)
  issued id hid := (h.issued id hid).trans (Nat.lt_succ_self n)
  held := h.held

/-- Whatever comes of a rebuild, the set that it leaves represents the same map. -/
theorem tryRebuildIfDue (h : Survives n s m) : Survives n (s.tryRebuildIfDue sorts).2 m := by
  rw [IntervalSet.tryRebuildIfDue]
  cases hr : s.rebuildIfDue sorts with
  | ok s' =>
    obtain ⟨-, rfl⟩ | ⟨-, tree, hbuild, rfl⟩ := rebuildIfDue_cases hr
    · exact h
    · exact h.rebuilt hbuild
  | error f => exact h

end Survives

/-! ## What comes of a rebuild -/

theorem Slots.tryRebuildIfDue_cases (h : s.Slots) (sorts : Sorts T IntervalId) :
    (s.tryRebuildIfDue sorts).1 = .ok () ∨
      (s.tryRebuildIfDue sorts).1 = .error .assertion ∧ SIZE_LIMIT ≤ s.len := by
  rw [IntervalSet.tryRebuildIfDue]
  cases hr : s.rebuildIfDue sorts with
  | ok s' => exact .inl rfl
  | error f =>
    obtain ⟨rfl, -, hlen⟩ := h.rebuildIfDue_eq_error.mp hr
    exact .inr ⟨rfl, hlen⟩

theorem tryInsert_eq (h : s.Slots) {into : IntoInterval T} (hinto : into.into = .ok range) :
    s.tryInsert sorts into value =
      (((s.added range value).tryRebuildIfDue sorts).1.map fun _ => s.nextId,
        ((s.added range value).tryRebuildIfDue sorts).2) := by
  rw [tryInsert, hinto]
  dsimp only
  rw [h.place_eq]
  rfl

theorem tryRemove_eq (he : s.entry id = some e) : s.tryRemove sorts id =
    (((s.dropped id).tryRebuildIfDue sorts).1.map fun _ => true,
      ((s.dropped id).tryRebuildIfDue sorts).2) := by
  have hlt := (List.getElem?_eq_some_iff.mp (entry_eq_some.mp he).1).1
  rw [tryRemove, he]
  simp only [store, if_pos hlt]
  rfl

theorem into_eq_error {into : IntoInterval T} {f : Fault}
    (h : into.into = .error f) : f = .assertion := by
  cases into with
  | range start stop =>
    rw [IntoInterval.into, Interval.new] at h
    split at h
    · cases h
    · cases h
      rfl
  | interval => cases h

/-! ## Attempts -/

namespace Survives

theorem attempt_insert (h : Survives n s m) (hn : n < SLOT_LIMIT) (into : IntoInterval T) :
    ∃ m', SetAttempt m (.insert into value) (s.attempt sorts (.insert into value)).1 m' ∧
      Survives (n + 1) (s.attempt sorts (.insert into value)).2 m' := by
  cases hinto : into.into with
  | error f =>
    have hcall : (Request.insert into value).call = none := by
      rw [Request.call, hinto]
      rfl
    have htry : s.tryInsert sorts into value =
        (.error f, { s with nextGeneration := s.nextGeneration + 1 }) := by
      rw [tryInsert, hinto]
    rw [attempt, htry, into_eq_error hinto]
    exact ⟨m, .reversed hcall, h.reversed⟩
  | ok range =>
    have hcall : (Request.insert into value).call = some (.insert range value) := by
      rw [Request.call, hinto]
      rfl
    have hadded := h.added range value hn
    have hfresh := h.nextId_notMem hn
    rw [attempt, tryInsert_eq h.mirrors.slots hinto]
    refine ⟨_, ?_, hadded.tryRebuildIfDue⟩
    obtain hok | ⟨hfull, hlen⟩ := hadded.mirrors.slots.tryRebuildIfDue_cases sorts
    · rw [hok]
      exact .returned hcall (.insert hfresh)
    · rw [hfull]
      exact .insertFull hcall hfresh (hlen.trans_eq hadded.mirrors.len)

theorem attempt_remove (h : Survives n s m) (id : IntervalId) :
    ∃ m', SetAttempt m (.remove id) (s.attempt sorts (.remove id)).1 m' ∧
      Survives n (s.attempt sorts (.remove id)).2 m' := by
  cases he : s.entry id with
  | none =>
    have htry : s.tryRemove sorts id = (.ok false, s) := by rw [tryRemove, he]
    have hdead : id ∉ m.live := fun hlive => by
      obtain ⟨e, he'⟩ := h.mirrors.mem_live.mp hlive
      cases he.symm.trans he'
    rw [attempt, htry]
    exact ⟨m, .returned rfl (.removeDead hdead), h⟩
  | some e =>
    have hdropped := h.dropped he
    have hlive := h.mirrors.mem_live.mpr ⟨e, he⟩
    rw [attempt, tryRemove_eq he]
    refine ⟨_, ?_, hdropped.tryRebuildIfDue⟩
    obtain hok | ⟨hfull, hlen⟩ := hdropped.mirrors.slots.tryRebuildIfDue_cases sorts
    · rw [hok]
      exact .returned rfl (.removeLive hlive)
    · rw [hfull]
      exact .removeFull hlive (hlen.trans_eq hdropped.mirrors.len)

theorem attempt_query (h : Survives n s m) (into : IntoInterval T) :
    SetAttempt m (.query into) (s.attempt sorts (.query into)).1 m := by
  rw [attempt]
  cases hinto : into.into with
  | error f =>
    have hcall : (Request.query into : Request T V).call = none := by
      rw [Request.call, hinto]
      rfl
    rw [into_eq_error hinto]
    exact .reversed hcall
  | ok range =>
    have hcall : (Request.query into : Request T V).call = some (.query range) := by
      rw [Request.call, hinto]
      rfl
    obtain ⟨es, hquery, hlists⟩ := h.mirrors.query range
    rw [ok_bind, hquery]
    exact .returned hcall (.query hlists)

theorem returned_of_reads (h : Survives n s m) (sorts : Sorts T IntervalId)
    {request : Request T V} {call : Op T V} {result : Output T V}
    (hcall : request.call = some call) (hreads : call.Reads)
    (hs : s.step sorts call = .ok (result, s)) : SetAttempt m request (.ok result) m :=
  .returned hcall (h.mirrors.read hreads hs)

/-- **An attempt** does to the map what it should, whether it returns or not. -/
theorem attempt (h : Survives n s m) (sorts : Sorts T IntervalId) (request : Request T V)
    (hn : n + Request.inserts [request] ≤ SLOT_LIMIT) :
    ∃ m', SetAttempt m request (s.attempt sorts request).1 m' ∧
      Survives (n + Request.inserts [request]) (s.attempt sorts request).2 m' := by
  cases request with
  | insert into value => exact h.attempt_insert hn into
  | remove id => exact h.attempt_remove id
  | clear => exact ⟨_, .returned rfl .clear, h.clear⟩
  | query into => exact ⟨m, h.attempt_query into, h⟩
  | get | getInterval | iter | len =>
    exact ⟨m, h.returned_of_reads sorts rfl trivial rfl, h⟩

end Survives

/-! ## Runs -/

omit [LinearOrder T] in
theorem Request.inserts_append (requests requests' : List (Request T V)) :
    Request.inserts (requests ++ requests') =
      Request.inserts requests + Request.inserts requests' :=
  List.countP_append

/-- **Panic safety.** A client that catches all panics, of reversed ranges and of the builder, has a
finite map at any point of a run with at most `2 ^ 32` attempts to insert. -/
theorem run_survives
    {log : List (Event (IntervalSet T V) (Request T V) (Exec (Output T V)))}
    (h : Run (fun s request => .ok (s.attempt sorts request)) new log s)
    (hn : Request.inserts (log.map Event.call) ≤ 2 ^ 32) :
    ∃ m : Registry IntervalId (Interval T × V), Steps SetAttempt .empty (log.map Event.io) m ∧
      ∀ id, s.get id = (m.live.lookup id).map (·.2) ∧
        s.getInterval id = (m.live.lookup id).map (·.1) := by
  obtain ⟨m, hsteps, hm⟩ : ∃ m, Steps SetAttempt .empty _ m ∧ _ := h.simulates
    (R := fun log s m => Survives (Request.inserts (log.map Event.call)) s m)
    (A := fun log => Request.inserts (log.map Event.call) ≤ SLOT_LIMIT) .new
    (fun log s request result s' m hR hA hs => by
      rw [List.map_append, Request.inserts_append] at hA ⊢
      have hattempt := hR.attempt sorts request hA
      rwa [Except.ok.inj hs] at hattempt)
    (fun log' hpre => (hpre.map _).sublist.countP_le.trans hn)
  refine ⟨m, hsteps, fun id => ?_⟩
  rw [get, getInterval, hm.mirrors.lookup, Option.map_map, Option.map_map]
  exact ⟨rfl, rfl⟩

/-- The second insertion and the first query are given reversed ranges. -/
theorem run_survives_reversed : ∃ log s,
    Run (fun s request => .ok (s.attempt (.stable Nat IntervalId) request)) new log s ∧
    log.map Event.io = [
      (.insert (.range 0 10) 'a', .ok (.id ⟨0⟩)), (.insert (.range 9 2) 'b', .error .assertion),
      (.insert (.interval ⟨9, 2⟩) 'c', .ok (.id ⟨2 ^ 33 + 1⟩)),
      (.query (.range 9 7), .error .assertion),
      (.query (.range 7 9), .ok (.entries [(⟨0⟩, ⟨0, 10⟩, 'a')]))] ∧
    ∃ m : Registry IntervalId (Interval Nat × Char), Steps SetAttempt .empty (log.map Event.io) m ∧
      ∀ id, s.get id = (m.live.lookup id).map (·.2) ∧
        s.getInterval id = (m.live.lookup id).map (·.1) :=
  have h := ((((Run.nil.snoc rfl).snoc rfl).snoc rfl).snoc rfl).snoc rfl
  ⟨_, _, h, rfl, run_survives h (by decide)⟩

end IntervalSet

end SimdIntervalTree
