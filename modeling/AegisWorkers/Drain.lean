/-
# `AegisWorkers.Drain` — without new requests and crashes, everything comes to an end

What is in flight, API calls and messages, owes a bounded number of external calls
(`World.distance`): a message that has been retried `n` times owes at most
`23 * 2 ^ (5 - n) - 9`, since a delivery in which `execute()` calls `self.retry` itself
leaves two messages behind, each with one retry less to come.  Every move of a call or of a
worker pays one of them, whatever it answers, so every schedule is done after that many.
And as long as something is in flight, somebody can go on with nothing failing
(`AegisWorkers.Progress`), so a schedule ends only where nothing is left.
-/
import AegisWorkers.Load
import AegisWorkers.Progress
import AegisWorkers.Custody
import Mathlib.Algebra.Order.BigOperators.Group.Finset

namespace Aegis

open BaseTask JobService ReadCommitted

/-- No new request comes, no worker dies, and the broker delivers nothing twice. -/
def Event.settling : Event → Bool
  | .call _ _ => false
  | .crash _ => false
  | .redeliver _ => false
  | _ => true

/-- An external call of a request or of a worker returns or fails, or a worker takes a message. -/
def Event.productive : Event → Bool
  | .api _ => true
  | .revoke _ _ => true
  | .apiFail _ => true
  | .take _ _ => true
  | .work _ _ => true
  | _ => false

/-- No request is on its way, and the default queue is empty. -/
structure World.Quiet (w : World) : Prop where
  calls : ∀ c, (w.calls c).op? = none
  slots : ∀ s, w.slots s = .empty

/-! ## What is owed -/

/-- What a message owes that has been retried `n` times. -/
def messageDistance (n : Nat) : Nat := 23 * Nat.pow 2 (5 - n) - 9

/-- What a delivery of attempt `n` owes. -/
def Phase.distance (n : Nat) : Phase → Nat
  | .received => messageDistance n - 1
  | .started => messageDistance n - 2
  | .missed => messageDistance n - 3
  | .executing => messageDistance n - 4
  | .returned _ => 8
  | .completed _ => 7
  | .counted _ => 6
  | .failing _ again stage =>
      (match stage with
        | .send => 5
        | .failed => 4
        | .dlq => 3
        | .count => 2) + if again then 4 else 0
  | .retrying _ again => messageDistance (n + 1) + 3 + again.toNat
  | .retried => 2
  | .handled => 1

def Slot.distance : Slot → Nat
  | .empty => 0
  | .queued m => messageDistance m.retries
  | .delivered m _ phase => phase.distance m.retries

/-- What a request owes, the message it publishes included. -/
def Call.distance : Call → Nat
  | .createJob _ .called => messageDistance 0 + 5
  | .createJob _ (.missed _) => messageDistance 0 + 4
  | .retryDlqJob _ .called => messageDistance 0 + 5
  | .retryDlqJob _ (.checked _ _) => messageDistance 0 + 4
  | .submitting _ .flushed => messageDistance 0 + 3
  | .submitting _ (.sent _) => 2
  | .submitting _ .committed => 1
  | .cancelJob _ .called => 4
  | .cancelJob _ (.checked _ _) => 3
  | .cancelJob _ (.revoked _) => 2
  | .cancelJob _ .updated => 1
  | .idle => 0
  | .returned _ _ => 0
  | .raised _ _ => 0

/-- What the first `n` calls and all messages owe. -/
def World.distance (n : Nat) (w : World) : Nat :=
  (∑ c ∈ Finset.range n, (w.calls c).distance) + w.load Slot.distance

section Pieces
variable {J : JsonCodec} {m : Message} {worker : Worker} {cached : Option String} {now : Time}
  {phase : Phase} {i : Input} {eff : Effects}

/-- One retry less to come is at most half of what is owed. -/
theorem messageDistance_step {n : Nat} (h : n < maxRetries) :
    2 * messageDistance (n + 1) + 9 = messageDistance n := by
  simp only [maxRetries] at h
  obtain ⟨k, hk⟩ : ∃ k, 5 - n = k + 1 := ⟨4 - n, by omega⟩
  have hk' : 5 - (n + 1) = k := by omega
  have hpow : 1 ≤ Nat.pow 2 k := Nat.one_le_two_pow
  have hsucc : Nat.pow 2 (k + 1) = Nat.pow 2 k * 2 := rfl
  simp only [messageDistance, hk, hk', hsucc]
  omega

theorem le_messageDistance (n : Nat) : 14 ≤ messageDistance n := by
  have hpow : 1 ≤ Nat.pow 2 (5 - n) := Nat.one_le_two_pow
  simp only [messageDistance]
  omega

theorem slot_distance : (eff.slot m worker).distance =
    (eff.next.map (Phase.distance m.retries)).getD 0 := by
  unfold Effects.slot
  cases eff.next <;> rfl

/-- A piece pays one of what its delivery owes, the messages it leaves behind included. -/
theorem Piece.pays (h : Piece J m worker cached now phase i eff) :
    (eff.slot m worker).distance + eff.queueLoad Slot.distance < phase.distance m.retries := by
  have hle := le_messageDistance m.retries
  have hnext := le_messageDistance (m.retries + 1)
  have hautoretry : ∀ exc : Exc,
      ((autoretry m exc).next.map (Phase.distance m.retries)).getD 0 <
        messageDistance m.retries - 3 ∧
      ((autoretry m exc).next.map (Phase.distance m.retries)).getD 0 <
        messageDistance (m.retries + 1) + 4 := by
    intro exc
    rcases autoretry_cases m exc with ⟨hlt, ha⟩ | ⟨-, ha⟩
    · have hstep := messageDistance_step hlt
      simp only [ha, Option.map_some, Option.getD_some, Phase.distance, Bool.toNat_false]
      omega
    · simp only [ha, Option.map_some, Option.getD_some, Phase.distance, Bool.false_eq_true,
        if_false]
      omega
  rw [slot_distance]
  unfold Effects.queueLoad
  cases h with
  | undecodable _ => exact (hautoretry _).1.trans (by simp only [Phase.distance]; omega)
  | lookupFails exc => exact (hautoretry exc).1.trans (by simp only [Phase.distance]; omega)
  | retryFails delay exc => exact (hautoretry exc).2
  | again exc hlt =>
      have hstep := messageDistance_step hlt
      simp only [Option.map_some, Option.getD_some, Option.map_none, Option.getD_none,
        Phase.distance, Bool.toNat_true]
      omega
  | ownRetry delay hlt =>
      have hstep := messageDistance_step hlt
      simp only [Option.map_some, Option.getD_some, Phase.distance, Slot.distance, retryMessage,
        Bool.toNat_true]
      omega
  | failure exc again stage =>
      cases stage <;> cases again <;> simp [onFailure, Phase.distance]
  | failureFails exc exc' again stage hne =>
      cases stage with
      | count => exact absurd rfl hne
      | _ => cases again <;> simp [onFailure, Phase.distance]
  | _ =>
      simp [Phase.distance, Slot.distance, beforeStart, onSuccess, countSuccess,
        storeIdempotencyResult, BaseTask.retry, BaseTask.onRetry, retryMessage] <;> omega

end Pieces

section Steps
variable {J : JsonCodec} {w w' : World} {e : Event} {c : CallId} {n : Nat}

theorem Local.pays {x y : Call} (h : Local w x y) : y.distance < x.distance := by
  have hle := le_messageDistance 0
  cases h <;> simp only [Call.distance] <;> omega

theorem Builds.distance {x : Call} {k : Nat} {sub : Submission} (h : Builds w x k sub) :
    x.distance = messageDistance 0 + 4 := by
  cases h <;> rfl

theorem Call.distance_pos {x : Call} {op : Op} (h : x.op? = some op) : 0 < x.distance := by
  cases x with
  | createJob req pc => cases pc <;> exact Nat.succ_pos _
  | cancelJob jobId pc => cases pc <;> exact Nat.succ_pos _
  | retryDlqJob jobId pc => cases pc <;> exact Nat.succ_pos _
  | submitting sub stage => cases stage <;> exact Nat.succ_pos _
  | _ => cases h

/-- A move of a call pays one of what the call owes, the message it publishes included. -/
theorem ApiStep.pays (h : ApiStep w c w') (hidle : w.calls c ≠ .idle) :
    (w'.calls c).distance < (w.calls c).distance ∧
      ∀ sub, w.calls c = .submitting sub .flushed → w'.calls c = .submitting sub (.sent w.uuid) →
        (w'.calls c).distance + messageDistance 0 < (w.calls c).distance := by
  have hsent : ∀ sub, w.calls c = .submitting sub .flushed →
      w'.calls c = .submitting sub (.sent w.uuid) →
      (w'.calls c).distance + messageDistance 0 < (w.calls c).distance := by
    intro sub hx hx'
    rw [hx, hx']
    simp only [Call.distance]
    omega
  refine ⟨?_, hsent⟩
  cases h with
  | enter op hi => exact absurd hi hidle
  | move hl =>
      rw [calls_setCall_self]
      exact hl.pays
  | raise hop _ =>
      rw [calls_raise_self]
      exact Call.distance_pos hop
  | violate hb _ =>
      rw [calls_raise_self, hb.distance]
      exact Nat.succ_pos _
  | flush hb _ =>
      rw [calls_setCall_self, hb.distance]
      exact Nat.lt_succ_self _
  | send hc =>
      rw [calls_setCall_self, hc]
      simp only [Call.distance]
      omega
  | land hc =>
      rw [calls_setCall_self, hc]
      exact Nat.lt_succ_self _
  | lock hc _ =>
      rw [calls_setCall_self, hc]
      exact Nat.lt_succ_self _
  | cancel hc =>
      rw [calls_return_self, hc]
      exact Nat.lt_succ_self _
  | revoke _ hc _ =>
      rw [calls_setCall_self, hc]
      exact Nat.lt_succ_self _

/-- A request that is not new and makes a move was on its way. -/
theorem not_idle (hP : e.settling) (he : e.call? = some c)
    (hs : (system J).step w e = some w') : w.calls c ≠ .idle := by
  intro hidle
  obtain ⟨op, rfl, -⟩ := step_idle he hs hidle
  cases hP

/-- Every productive step pays one. -/
theorem distance_step (hb : Bounded w) (hn : IdleFrom n w) (hP : e.settling)
    (hs : (system J).step w e = some w') :
    w'.distance n + (if e.productive then 1 else 0) ≤ w.distance n := by
  have he := step_cases hs
  have hcalls : ∀ {e : Event}, e.call? = none → (system J).step w e = some w' →
      (∑ c ∈ Finset.range n, (w'.calls c).distance) =
        ∑ c ∈ Finset.range n, (w.calls c).distance := by
    intro e hc hs
    exact Finset.sum_congr rfl fun c _ => by rw [step_calls_ne (by simp [hc]) hs]
  -- the sum over the calls when call `c` moves
  have hmoved : ∀ {c : CallId}, e.call? = some c →
      (∑ c ∈ Finset.range n, (w'.calls c).distance) + (w.calls c).distance =
        (∑ c ∈ Finset.range n, (w.calls c).distance) + (w'.calls c).distance := by
    intro c hc
    have hlt : c < n := Nat.lt_of_not_le fun hle => not_idle hP hc hs (hn c hle)
    refine sum_moved (f := fun c => (w'.calls c).distance) (g := fun c => (w.calls c).distance)
      hlt ?_
    intro k hk
    have hne : e.call? ≠ some k := by
      rw [hc]
      exact fun hck => hk (Option.some.inj hck).symm
    simp only [step_calls_ne hne hs]
  cases he.shift (f := Slot.distance) hb rfl with
  | same hsame _ hload =>
      rcases hsame with hamb | ⟨c, hc⟩
      · have hc := Event.call?_of_ambient hamb
        have hprod : e.productive = false := by
          cases e with
          | api c => cases hc
          | revoke c _ => cases hc
          | apiFail c => cases hc
          | take _ _ => cases hamb
          | work _ _ => cases hamb
          | _ => rfl
        simp only [World.distance, hcalls hc hs, hload, hprod, Bool.false_eq_true, if_false,
          Nat.add_zero, Nat.le_refl]
      · have hpay := ((step_api hc hs).pays (not_idle hP hc hs)).1
        have hsum := hmoved hc
        simp only [World.distance, hload]
        split <;> omega
  | sent hc hx hx' _ hload =>
      have hpay := ((step_api hc hs).pays (not_idle hP hc hs)).2 _ hx hx'
      have hsum := hmoved hc
      simp only [World.distance, hload, Slot.distance, message]
      split <;> omega
  | dropped hev _ hload =>
      subst hev
      have hle := le_messageDistance
      rename_i m _
      have hm := hle m.retries
      simp only [Slot.distance] at hload
      simp only [World.distance, hcalls rfl hs, Event.productive, if_true]
      omega
  | taken hev _ hload =>
      subst hev
      rename_i m _
      have hm := le_messageDistance m.retries
      simp only [Slot.distance, Phase.distance] at hload
      simp only [World.distance, hcalls rfl hs, Event.productive, if_true]
      omega
  | worked hev _ hp _ hload =>
      subst hev
      have hpay := hp.pays
      simp only [Slot.distance] at hload hpay
      simp only [World.distance, hcalls rfl hs, Event.productive, if_true]
      omega
  | crashed hev _ _ =>
      subst hev
      cases hP
  | redelivered hev _ _ =>
      subst hev
      cases hP

theorem messageDistance_le (k : Nat) : messageDistance k ≤ 727 := by
  have hpow : Nat.pow 2 (5 - k) ≤ Nat.pow 2 5 :=
    Nat.pow_le_pow_right (Nat.succ_pos 1) (Nat.sub_le 5 k)
  have hfive : Nat.pow 2 5 = 32 := rfl
  simp only [messageDistance]
  omega

theorem Slot.distance_le (x : Slot) : x.distance ≤ 727 := by
  cases x with
  | empty => exact Nat.zero_le _
  | queued m => exact messageDistance_le _
  | delivered m worker phase =>
      have hle := messageDistance_le m.retries
      have hnext := messageDistance_le (m.retries + 1)
      have hlow := le_messageDistance m.retries
      cases phase with
      | failing exc again stage =>
          cases stage <;> cases again <;> simp [Slot.distance, Phase.distance]
      | retrying delay again =>
          -- the messages of an attempt that is tried again have not the first one's retries
          have hhalf : messageDistance (m.retries + 1) ≤ 359 := by
            have hpow : Nat.pow 2 (5 - (m.retries + 1)) ≤ Nat.pow 2 4 :=
              Nat.pow_le_pow_right (Nat.succ_pos 1) (by omega)
            have hfour : Nat.pow 2 4 = 16 := rfl
            simp only [messageDistance]
            omega
          have hagain := again.toNat_le
          simp only [Slot.distance, Phase.distance]
          omega
      | _ => simp only [Slot.distance, Phase.distance]; omega

theorem Call.distance_le (x : Call) : x.distance ≤ 732 := by
  have hle := messageDistance_le 0
  cases x with
  | createJob req pc => cases pc <;> simp only [Call.distance] <;> omega
  | cancelJob jobId pc => cases pc <;> simp only [Call.distance] <;> omega
  | retryDlqJob jobId pc => cases pc <;> simp only [Call.distance] <;> omega
  | submitting sub stage => cases stage <;> simp only [Call.distance] <;> omega
  | _ => exact Nat.zero_le _

/-- A request owes 732 moves at most, and a message 727. -/
theorem distance_le (n : Nat) (w : World) : w.distance n ≤ 732 * n + 727 * w.nextSlot := by
  have hcalls : (∑ c ∈ Finset.range n, (w.calls c).distance) ≤ n * 732 := by
    refine (Finset.sum_le_card_nsmul _ _ 732 fun c _ => (w.calls c).distance_le).trans ?_
    rw [Finset.card_range, Nat.nsmul_eq_mul]
  have hslots : w.load Slot.distance ≤ w.nextSlot * 727 := by
    refine (Finset.sum_le_card_nsmul _ _ 727 fun s _ => (w.slots s).distance_le).trans ?_
    rw [Finset.card_range, Nat.nsmul_eq_mul]
  simp only [World.distance]
  omega

/-- The calls made so far are finitely many. -/
theorem exists_idleFrom {P : World → Event → Prop} {es : List Event} {allowed : List String}
    (h : (system J).Run P (.init allowed) es w) : ∃ n, IdleFrom n w := by
  refine h.invariant (I := fun w => ∃ n, IdleFrom n w) ?_ ⟨0, fun _ _ => rfl⟩
  rintro v v' e ⟨n, hn⟩ - hs
  cases hc : e.call? with
  | none =>
      refine ⟨n, hn.step ?_ hs⟩
      simp only [Event.within, hc]
  | some c =>
      refine ⟨max n (c + 1), IdleFrom.step (w := v) ?_ ?_ hs⟩
      · intro c' hc'
        exact hn c' (Nat.le_trans (Nat.le_max_left ..) hc')
      · simp only [Event.within, hc]
        exact decide_eq_true (Nat.lt_of_lt_of_le (Nat.lt_succ_self c) (Nat.le_max_right ..))

/-- A settling run makes no new calls. -/
theorem IdleFrom.settles (hn : IdleFrom n w) (hP : e.settling)
    (hs : (system J).step w e = some w') : IdleFrom n w' := by
  refine hn.step ?_ hs
  unfold Event.within
  split
  · rename_i c hc
    refine decide_eq_true (Nat.lt_of_not_le fun hle => ?_)
    exact not_idle hP hc hs (hn c hle)
  · rfl

end Steps

/-! ## Somebody can go on -/

section Live
variable {J : JsonCodec} {w : World}

/-- A message in the queue falls due, and is taken, or dropped as revoked. -/
theorem take_enabled {s : SlotId} {m : Message} (hs : w.slots s = .queued m) (worker : Worker) :
    ∃ w', (system J).Run (fun _ e => e.settling ∧ smooth e) w
      [.tick (m.eta - w.clock), .take s worker] w' := by
  have hdue : ¬ w.clock + (m.eta - w.clock) < m.eta := by
    have : w.clock ≤ w.clock + (m.eta - w.clock) := Nat.le_add_right _ _
    exact Nat.not_lt.mpr (Nat.sub_le_iff_le_add'.mp (Nat.le_refl _))
  obtain ⟨w', hw'⟩ : ∃ w', (system J).step { w with clock := w.clock + (m.eta - w.clock) }
      (.take s worker) = some w' := by
    simp only [system, World.take, hs, hdue, if_false]
    split <;> exact ⟨_, rfl⟩
  exact ⟨w', .cons ⟨rfl, rfl⟩ rfl (.cons ⟨rfl, rfl⟩ hw' (.nil _))⟩

theorem input_smooth (s : SlotId) (phase : Phase) (x : Outcome) :
    smooth (.work s (phase.input x)) := by
  cases phase <;> rfl

/-- Whoever can go on, goes on. -/
theorem Party.Ready.advances {x : Party} (hx : x.InFlight w) (h : x.Ready J w) :
    ∃ e w', e.settling ∧ e.productive ∧ smooth e ∧ (system J).step w e = some w' := by
  cases x with
  | call c =>
      obtain ⟨e, w', rfl | ⟨receivers, rfl⟩, hs⟩ := h
      · exact ⟨_, w', rfl, rfl, rfl, hs⟩
      · exact ⟨_, w', rfl, rfl, rfl, hs⟩
  | slot s =>
      obtain ⟨m, worker, phase, hslot⟩ := hx
      obtain ⟨w', hs⟩ := h m worker phase hslot (.returns .null)
        (fun delay h => by cases h)
      exact ⟨_, w', rfl, rfl, input_smooth s phase _, hs⟩

/-- As long as anything is in flight, somebody can go on, with nothing failing. -/
theorem exists_productive (hg : Ground w) (hq : ¬ w.Quiet) :
    ∃ k e w', e.productive ∧
      (system J).Run (fun _ e => e.settling ∧ smooth e) w [.tick k, e] w' := by
  have hparty : ∀ x : Party, x.InFlight w → ∃ k e w', e.productive ∧
      (system J).Run (fun _ e => e.settling ∧ smooth e) w [.tick k, e] w' := by
    intro x hx
    have hready : ∃ y : Party, y.InFlight w ∧ y.Ready J w := by
      rcases ready_or_waits (J := J) hg hx with hr | ⟨d, hd⟩
      · exact ⟨x, hx, hr⟩
      · have hholds := hd.holds hg
        have hin : (Party.call d).InFlight w := by
          show (w.calls d).op?.isSome
          generalize w.calls d = y at hholds
          cases hholds <;> rfl
        rcases ready_or_waits (J := J) hg hin with hr | ⟨d', hd'⟩
        · exact ⟨_, hin, hr⟩
        · exact absurd hd' hholds.not_waits
    obtain ⟨y, hy, hr⟩ := hready
    obtain ⟨e, w', hset, hprod, hsm, hs⟩ := hr.advances hy
    have htick : (system J).step w (.tick 0) = some w := rfl
    exact ⟨0, e, w', hprod, .cons ⟨rfl, rfl⟩ htick (.cons ⟨hset, hsm⟩ hs (.nil _))⟩
  by_cases hcalls : ∀ c, (w.calls c).op? = none
  · have hslots : ∃ s, w.slots s ≠ .empty := by
      by_contra hall
      exact hq ⟨hcalls, fun s => not_not.mp fun hne => hall ⟨s, hne⟩⟩
    obtain ⟨s, hne⟩ := hslots
    cases hs : w.slots s with
    | empty => exact absurd hs hne
    | queued m =>
        obtain ⟨w', hrun⟩ := take_enabled (J := J) hs "worker"
        exact ⟨_, _, w', rfl, hrun⟩
    | delivered m worker phase => exact hparty (.slot s) ⟨m, worker, phase, hs⟩
  · obtain ⟨c, hc⟩ := not_forall.mp hcalls
    exact hparty (.call c) (Option.isSome_iff_ne_none.mpr hc)

end Live

/-! ## Every schedule -/

section Settling
variable {J : JsonCodec} {w w' : World} {fs : List Event} {n : Nat}

/-- The moves of a settling schedule are paid for. -/
theorem settling_spends (hg : Ground w) (hn : IdleFrom n w)
    (h : (system J).Run (fun _ e => e.settling) w fs w') :
    w'.distance n + fs.countP Event.productive ≤ w.distance n := by
  rw [← h.total_count]
  refine h.spends (I := fun v => Ground v ∧ IdleFrom n v) (World.distance n)
    (fun _ e => if e.productive then 1 else 0) ?_ ?_ ⟨hg, hn⟩
  · intro v v' e hi hP hs
    exact ⟨hi.1.step (step_cases hs), hi.2.settles hP hs⟩
  · intro v v' e hi hP hs
    exact distance_step hi.1.bounded hi.2 hP hs

theorem settling_bounded (hg : Ground w) (hn : IdleFrom n w)
    (h : (system J).Run (fun _ e => e.settling) w fs w') :
    fs.countP Event.productive ≤ 732 * n + 727 * w.nextSlot := by
  have hpaid := settling_spends hg hn h
  exact Nat.le_trans (Nat.le_trans (Nat.le_add_left _ _) hpaid) (distance_le n w)

/-- Some settling schedule, with nothing failing, ends with nothing in flight. -/
theorem exists_quiet (hg : Ground w) (hn : IdleFrom n w) :
    ∃ fs w', (system J).Run (fun _ e => e.settling ∧ smooth e) w fs w' ∧ w'.Quiet := by
  have hnearer : ∀ v, Ground v ∧ IdleFrom n v → ¬ v.Quiet → ∃ fs v',
      (system J).Run (fun _ e => e.settling ∧ smooth e) v fs v' ∧
        (Ground v' ∧ IdleFrom n v') ∧ v'.distance n < v.distance n := by
    rintro v ⟨hv, hidle⟩ hq
    obtain ⟨k, e, v', hprod, hrun⟩ := exists_productive (J := J) hv hq
    have hset : (system J).Run (fun _ e => e.settling) v [.tick k, e] v' :=
      (Machine.run_and.mp hrun).1
    have hpaid := settling_spends hv hidle hset
    have hone : 1 ≤ [Event.tick k, e].countP Event.productive := by
      simp only [List.countP_cons, hprod, if_true]
      omega
    have hidle' : IdleFrom n v' :=
      hset.invariant (I := IdleFrom n) (fun hi hP hs => hi.settles hP hs) hidle
    exact ⟨_, v', hrun, ⟨run_ground hrun hv, hidle'⟩, by omega⟩
  obtain ⟨fs, w', hrun, -, hq⟩ := Machine.reaches_of_measure (World.distance n) hnearer w ⟨hg, hn⟩
  exact ⟨fs, w', hrun, hq⟩

end Settling

end Aegis
