/-
# `AegisWorkers.Load` — sums over the slots, and what each event does to them

`w.load f` adds up what `f` says of every slot of the default queue.  Whatever `f` is, as
long as an empty slot adds nothing, an event moves one slot, fills a new one, or both, so
the sum changes in one of a few ways (`Shift`).  The bounds of the later modules are choices
of `f`.
-/
import AegisWorkers.Attempts
import AegisWorkers.Potential

namespace Aegis

open BaseTask JobService ReadCommitted

def World.load (f : Slot → Nat) (w : World) : Nat :=
  ∑ s ∈ Finset.range w.nextSlot, f (w.slots s)

/-- What `f` says of the message a piece publishes. -/
def BaseTask.Effects.queueLoad (f : Slot → Nat) (eff : Effects) : Nat :=
  (eff.queue.map fun m => f (.queued m)).getD 0

/-- What an event does to a sum over the slots. -/
inductive Shift (J : JsonCodec) (f : Slot → Nat) (w : World) (e : Event) (w' : World) : Prop
  | same : e.ambient ∨ (∃ c, e.call? = some c) → w'.published = w.published →
      w'.load f = w.load f → Shift J f w e w'
  | sent {c : CallId} {sub : Submission} : e.call? = some c →
      w.calls c = .submitting sub .flushed → w'.calls c = .submitting sub (.sent w.uuid) →
      w'.published = message sub w.uuid :: w.published →
      w'.load f = w.load f + f (.queued (message sub w.uuid)) → Shift J f w e w'
  | dropped {s : SlotId} {worker : Worker} {m : Message} : e = .take s worker →
      w.slots s = .queued m → w'.load f + f (.queued m) = w.load f → Shift J f w e w'
  | taken {s : SlotId} {worker : Worker} {m : Message} : e = .take s worker →
      w.slots s = .queued m →
      w'.load f + f (.queued m) = w.load f + f (.delivered m worker .received) →
      Shift J f w e w'
  | worked {s : SlotId} {i : Input} {m : Message} {worker : Worker} {phase : Phase}
      {eff : Effects} {db : Db} : e = .work s i → w.slots s = .delivered m worker phase →
      Piece J m worker (w.cache (cacheKey m.idempotencyKey)) w.clock phase i eff →
      w' = w.apply J s m worker eff db →
      w'.load f + f (.delivered m worker phase) =
        w.load f + f (eff.slot m worker) + eff.queueLoad f → Shift J f w e w'
  | crashed {s : SlotId} {m : Message} {worker : Worker} {phase : Phase} : e = .crash s →
      w.slots s = .delivered m worker phase →
      w'.load f + f (.delivered m worker phase) = w.load f + f (.queued m) → Shift J f w e w'
  | redelivered {s : SlotId} {m : Message} {worker : Worker} {phase : Phase} :
      e = .redeliver s → w.slots s = .delivered m worker phase →
      w'.load f = w.load f + f (.queued m) → Shift J f w e w'

section Load
variable {J : JsonCodec} {f : Slot → Nat} {w w' : World} {s : SlotId} {m : Message}
  {worker : Worker} {phase : Phase} {eff : Effects} {db : Db}

theorem load_congr (hs : w'.slots = w.slots) (hn : w'.nextSlot = w.nextSlot) :
    w'.load f = w.load f := by
  simp only [World.load, hs, hn]

theorem load_setSlot (hlt : s < w.nextSlot) (x : Slot) :
    (w.setSlot s x).load f + f (w.slots s) = w.load f + f x := sum_update hlt x

theorem load_enqueue (hb : Bounded w) (hf : f .empty = 0) (m : Message) :
    (w.enqueue m).load f = w.load f + f (.queued m) := by
  have hsum := sum_update (f := w.slots) (g := f) (Nat.lt_succ_self w.nextSlot) (.queued m)
  rw [Finset.sum_range_succ (fun i => f (w.slots i)), hb _ (Nat.le_refl _), hf] at hsum
  exact hsum

theorem load_apply (hb : Bounded w) (hf : f .empty = 0)
    (hs : w.slots s = .delivered m worker phase) :
    (w.apply J s m worker eff db).load f + f (.delivered m worker phase) =
      w.load f + f (eff.slot m worker) + eff.queueLoad f := by
  have hlt : s < w.nextSlot := hb.lt (by rw [hs]; intro h; cases h)
  cases hq : eff.queue with
  | none =>
      have happly : (w.apply J s m worker eff db).load f =
          (w.setSlot s (eff.slot m worker)).load f := by
        rw [World.load, World.apply, hq]
        rfl
      have hsum := load_setSlot (f := f) hlt (eff.slot m worker)
      rw [happly, ← hs, hsum, Effects.queueLoad, hq]
      rfl
  | some m' =>
      have happly : (w.apply J s m worker eff db).load f =
          ((w.enqueue m').setSlot s (eff.slot m worker)).load f := by
        rw [World.load, World.apply, hq]
        rfl
      have hkept : (w.enqueue m').slots s = w.slots s :=
        Function.update_of_ne (Nat.ne_of_lt hlt) ..
      have hsum := @load_setSlot f (w.enqueue m') s (Nat.lt_succ_of_lt hlt) (eff.slot m worker)
      rw [happly, ← hs, ← hkept, hsum, load_enqueue hb hf, Effects.queueLoad, hq]
      simp only [Option.map_some, Option.getD_some]
      omega

/-- What `f` says of the delivery after a piece, from what it says of its phase. -/
theorem slot_load {g : Phase → Nat} (hf : f .empty = 0)
    (hg : ∀ phase, f (.delivered m worker phase) = g phase) :
    f (eff.slot m worker) = (eff.next.map g).getD 0 := by
  unfold Effects.slot
  cases eff.next with
  | none => exact hf
  | some phase => exact hg phase

/-- A delivery leaves alone what is said of another job. -/
theorem Piece.load_other {cached : Option String} {now : Time} {i : Input} {j : Uuid}
    (h : Piece J m worker cached now phase i eff) (hf : ∀ x, x.jobId? ≠ some j → f x = 0)
    (hj : m.jobId ≠ j) : f (eff.slot m worker) + eff.queueLoad f = 0 := by
  have hempty : Slot.empty.jobId? ≠ some j := by simp [Slot.jobId?, Slot.message?]
  have hslot : f (eff.slot m worker) = (eff.next.map fun _ => 0).getD 0 :=
    slot_load (hf .empty hempty) fun phase =>
      hf (.delivered m worker phase) fun hid => hj (Option.some.inj hid)
  have hqueue : eff.queueLoad f = 0 := by
    unfold Effects.queueLoad
    cases hq : eff.queue with
    | none => rfl
    | some m' =>
        have hcopy := (h.queue_copy hq).jobId
        exact hf (.queued m') fun hid => hj (hcopy.symm.trans (Option.some.inj hid))
  rw [hslot, hqueue]
  cases eff.next <;> rfl

theorem jobId?_delivered {j : Uuid} (hs : w.slots s = .delivered m worker phase) :
    (w.slots s).jobId? = some j ↔ m.jobId = j := by
  rw [hs]
  simp only [Slot.jobId?, Slot.message?, Option.map_some, Option.some.injEq]

theorem SysStep.shift {e : Event} (h : SysStep J w e w') (hb : Bounded w) (hf : f .empty = 0) :
    Shift J f w e w' := by
  have hlt : ∀ {s : SlotId}, w.slots s ≠ .empty → s < w.nextSlot := fun hne => hb.lt hne
  cases h with
  | @api _ c _ hc ha =>
      cases ha.published with
      | same hp hnot =>
          cases ha.slots with
          | same hs hn => exact .same (.inr ⟨c, hc⟩) hp (load_congr hs hn)
          | sent sub _ hx' _ _ => exact absurd hx' (hnot sub _)
      | sent sub hx hx' hp _ hslot =>
          cases ha.slots with
          | same hs _ =>
              -- `send_task` fills a slot
              rw [hs, hb _ (Nat.le_refl _)] at hslot
              cases hslot
          | sent sub' hx₁ _ hs hn =>
              rw [hx, Call.submitting.injEq] at hx₁
              obtain ⟨rfl, -⟩ := hx₁
              refine .sent hc hx hx' hp ?_
              rw [← load_enqueue hb hf]
              exact load_congr hs hn
  | @drop s₀ worker m hs hheard =>
      have hsum := load_setSlot (f := f) (hlt (s := s₀) (by rw [hs]; intro h; cases h)) .empty
      rw [hs, hf, Nat.add_zero] at hsum
      exact .dropped rfl hs hsum
  | @take s₀ worker m hs _ _ =>
      have hsum := load_setSlot (f := f) (hlt (s := s₀) (by rw [hs]; intro h; cases h))
        (.delivered m worker .received)
      rw [hs] at hsum
      exact .taken rfl hs hsum
  | work hs hp hdb => exact .worked rfl hs hp rfl (load_apply hb hf hs)
  | @crash s₀ m _ _ hs =>
      have hsum := load_setSlot (f := f) (hlt (s := s₀) (by rw [hs]; intro h; cases h)) (.queued m)
      rw [hs] at hsum
      exact .crashed rfl hs hsum
  | redeliver hs => exact .redelivered rfl hs (load_enqueue hb hf _)
  | env hn he =>
      refine .same (.inl hn) ?_ (load_congr he.slots he.nextSlot)
      rw [World.published, he.trace]
      rfl

end Load

end Aegis
