/-
# `AegisWorkers.ReadCommitted` — a table under READ COMMITTED with two unique indexes

One table of rows `ρ`, a primary key `pk`, a second unique column `uk`, and
transactions named by `τ`.  What is modelled of the database is what a client
can tell apart under READ COMMITTED:

  * a query sees committed rows only (`find`, `findKey`);
  * an INSERT waits for an open transaction that holds the same key and fails
    on a committed row that holds it (`insert`);
  * an UPDATE inside a transaction locks its row, and every other UPDATE of
    that row waits (`lock`, `update`); an UPDATE that matches no row succeeds;
  * COMMIT shows the transaction's writes at once, ROLLBACK drops them.

The unique indexes cover committed and uncommitted rows together, and that is
a field of the type: a `Store` in which two entries share a key cannot be
built.  Likewise a `Patch` is an UPDATE that leaves both keys alone, by a field,
so no lemma below has a side condition about keys.
-/
import Mathlib.Data.List.Nodup
import Mathlib.Data.List.Perm.Basic

set_option linter.unusedSectionVars false

namespace ReadCommitted

variable {ρ ι κ τ : Type}

/-- The SET clause of an UPDATE that touches neither key. -/
structure Patch (pk : ρ → ι) (uk : ρ → κ) where
  apply : ρ → ρ
  pk_apply : ∀ r, pk (apply r) = pk r
  uk_apply : ∀ r, uk (apply r) = uk r

/-- The table: committed rows, rows inserted by open transactions, and rows
updated (hence locked) by open transactions. -/
structure Store (pk : ρ → ι) (uk : ρ → κ) (τ : Type) where
  rows : List ρ
  pending : List (τ × ρ)
  locks : List (τ × ι × Patch pk uk)
  pk_nodup : ((rows ++ pending.map Prod.snd).map pk).Nodup
  uk_nodup : ((rows ++ pending.map Prod.snd).map uk).Nodup

/-- What an INSERT can come to. -/
inductive InsertResult (pk : ρ → ι) (uk : ρ → κ) (τ : Type)
  | waits
  | violates
  | inserted (s : Store pk uk τ)

variable {pk : ρ → ι} {uk : ρ → κ} [DecidableEq ι]

namespace Patch

/-- `UPDATE … WHERE pk = i`, on one row. -/
def applyAt (p : Patch pk uk) (i : ι) (r : ρ) : ρ := if pk r = i then p.apply r else r

theorem pk_applyAt (p : Patch pk uk) (i : ι) (r : ρ) : pk (p.applyAt i r) = pk r := by
  unfold Patch.applyAt; split
  · exact p.pk_apply r
  · rfl

theorem uk_applyAt (p : Patch pk uk) (i : ι) (r : ρ) : uk (p.applyAt i r) = uk r := by
  unfold Patch.applyAt; split
  · exact p.uk_apply r
  · rfl

theorem applyAt_of_eq (p : Patch pk uk) {i : ι} {r : ρ} (h : pk r = i) :
    p.applyAt i r = p.apply r :=
  if_pos h

theorem applyAt_of_ne (p : Patch pk uk) {i : ι} {r : ρ} (h : pk r ≠ i) : p.applyAt i r = r :=
  if_neg h

end Patch

/-! ## Looking a row up in a list without duplicate keys -/

/-- The first row with a key is the only one. -/
theorem find?_key {α β : Type} [DecidableEq β] {f : α → β} :
    ∀ {l : List α}, (l.map f).Nodup → ∀ {b : β} {a : α},
      l.find? (fun x => f x = b) = some a ↔ a ∈ l ∧ f a = b
  | [], _, b, a => by simp
  | x :: l, hl, b, a => by
      rw [List.map_cons, List.nodup_cons] at hl
      by_cases hx : f x = b
      · rw [List.find?_cons_of_pos (by simpa using hx), Option.some.injEq, List.mem_cons]
        constructor
        · rintro rfl
          exact ⟨.inl rfl, hx⟩
        · rintro ⟨rfl | ha, hab⟩
          · rfl
          · exact absurd (List.mem_map.mpr ⟨a, ha, hab.trans hx.symm⟩) hl.1
      · rw [List.find?_cons_of_neg (by simpa using hx), find?_key hl.2, List.mem_cons]
        constructor
        · exact fun h => ⟨.inr h.1, h.2⟩
        · rintro ⟨rfl | ha, hab⟩
          · exact absurd hab hx
          · exact ⟨ha, hab⟩

namespace Store

variable [DecidableEq κ] [DecidableEq τ]

/-- The empty table, no transaction open. -/
def empty : Store pk uk τ where
  rows := []
  pending := []
  locks := []
  pk_nodup := List.nodup_nil
  uk_nodup := List.nodup_nil

/-- `SELECT … WHERE pk = i`. -/
def find (s : Store pk uk τ) (i : ι) : Option ρ := s.rows.find? fun r => pk r = i

/-- `SELECT … WHERE uk = k`. -/
def findKey (s : Store pk uk τ) (k : κ) : Option ρ := s.rows.find? fun r => uk r = k

/-- Every entry of the unique indexes: committed rows and uncommitted ones. -/
def entries (s : Store pk uk τ) : List ρ := s.rows ++ s.pending.map Prod.snd

/-- The rows transaction `t` has inserted and not yet committed. -/
def inserts (s : Store pk uk τ) (t : τ) : List ρ :=
  (s.pending.filter fun q => q.1 = t).map Prod.snd

/-- The updates transaction `t` has issued and not yet committed. -/
def updates (s : Store pk uk τ) (t : τ) : List (ι × Patch pk uk) :=
  (s.locks.filter fun l => l.1 = t).map Prod.snd

/-- INSERT of `r` by `t`. -/
def insert (s : Store pk uk τ) (t : τ) (r : ρ) : InsertResult pk uk τ :=
  if ∃ q ∈ s.pending, q.1 ≠ t ∧ (pk q.2 = pk r ∨ uk q.2 = uk r) then .waits
  else if h : pk r ∈ s.entries.map pk ∨ uk r ∈ s.entries.map uk then .violates
  else .inserted
    { s with
      pending := (t, r) :: s.pending
      pk_nodup := by
        simp only [List.map_cons, List.map_append, List.nodup_middle]
        refine List.nodup_cons.mpr ⟨fun hm => h (.inl ?_), by simpa using s.pk_nodup⟩
        simpa [entries] using hm
      uk_nodup := by
        simp only [List.map_cons, List.map_append, List.nodup_middle]
        refine List.nodup_cons.mpr ⟨fun hm => h (.inr ?_), by simpa using s.uk_nodup⟩
        simpa [entries] using hm }

/-- UPDATE of a row that `t` itself has inserted. -/
def amend (s : Store pk uk τ) (t : τ) (i : ι) (p : Patch pk uk) : Store pk uk τ :=
  { s with
    pending := s.pending.map fun q => if q.1 = t then (q.1, p.applyAt i q.2) else q
    pk_nodup := by
      convert s.pk_nodup using 1
      simp only [List.map_append, List.map_map]
      refine congrArg _ (List.map_congr_left ?_)
      intro q _
      simp only [Function.comp_apply]; split
      · exact p.pk_applyAt i q.2
      · rfl
    uk_nodup := by
      convert s.uk_nodup using 1
      simp only [List.map_append, List.map_map]
      refine congrArg _ (List.map_congr_left ?_)
      intro q _
      simp only [Function.comp_apply]; split
      · exact p.uk_applyAt i q.2
      · rfl }

/-- The committed effect of `UPDATE … WHERE pk = i`. -/
def patch (s : Store pk uk τ) (i : ι) (p : Patch pk uk) : Store pk uk τ :=
  { s with
    rows := s.rows.map (p.applyAt i)
    pk_nodup := by simpa [Function.comp_def, p.pk_applyAt] using s.pk_nodup
    uk_nodup := by simpa [Function.comp_def, p.uk_applyAt] using s.uk_nodup }

/-- UPDATE inside transaction `t`; `none` while another transaction holds the row. -/
def lock (s : Store pk uk τ) (t : τ) (i : ι) (p : Patch pk uk) : Option (Store pk uk τ) :=
  if ∃ l ∈ s.locks, l.1 ≠ t ∧ l.2.1 = i then none
  else some { s with locks := (t, i, p) :: s.locks }

/-- UPDATE in a transaction of its own; `none` while another transaction holds the row. -/
def update (s : Store pk uk τ) (i : ι) (p : Patch pk uk) : Option (Store pk uk τ) :=
  if ∃ l ∈ s.locks, l.2.1 = i then none else some (s.patch i p)

/-- The rows of `t` become visible. -/
def land (s : Store pk uk τ) (t : τ) : Store pk uk τ :=
  { s with
    rows := s.rows ++ s.inserts t
    pending := s.pending.filter fun q => q.1 ≠ t
    pk_nodup := by
      refine ((List.Perm.map pk ?_).nodup_iff).mp s.pk_nodup
      rw [List.append_assoc]
      refine List.Perm.append_left _ ?_
      rw [inserts, ← List.map_append]
      simpa using ((List.filter_append_perm (fun q => decide (q.1 = t)) s.pending).map
        Prod.snd).symm
    uk_nodup := by
      refine ((List.Perm.map uk ?_).nodup_iff).mp s.uk_nodup
      rw [List.append_assoc]
      refine List.Perm.append_left _ ?_
      rw [inserts, ← List.map_append]
      simpa using ((List.filter_append_perm (fun q => decide (q.1 = t)) s.pending).map
        Prod.snd).symm }

/-- The locks of `t` are given back. -/
def unlock (s : Store pk uk τ) (t : τ) : Store pk uk τ :=
  { s with locks := s.locks.filter fun l => l.1 ≠ t }

/-- COMMIT of `t`: its rows become visible, its updates take effect, its locks go. -/
def commit (s : Store pk uk τ) (t : τ) : Store pk uk τ :=
  ((s.updates t).foldr (fun u s' => s'.patch u.1 u.2) (s.land t)).unlock t

/-- ROLLBACK of `t`. -/
def rollback (s : Store pk uk τ) (t : τ) : Store pk uk τ :=
  { s with
    pending := s.pending.filter fun q => q.1 ≠ t
    locks := s.locks.filter fun l => l.1 ≠ t
    pk_nodup := s.pk_nodup.sublist
      (((List.Sublist.refl _).append (List.filter_sublist.map _)).map _)
    uk_nodup := s.uk_nodup.sublist
      (((List.Sublist.refl _).append (List.filter_sublist.map _)).map _) }

/-! ## What a query sees -/

theorem find_eq_some {s : Store pk uk τ} {i : ι} {r : ρ} :
    s.find i = some r ↔ r ∈ s.rows ∧ pk r = i :=
  find?_key (s.pk_nodup.sublist ((List.sublist_append_left _ _).map _))

theorem findKey_eq_some {s : Store pk uk τ} {k : κ} {r : ρ} :
    s.findKey k = some r ↔ r ∈ s.rows ∧ uk r = k :=
  find?_key (s.uk_nodup.sublist ((List.sublist_append_left _ _).map _))

theorem find_eq_none {s : Store pk uk τ} {i : ι} : s.find i = none ↔ ∀ r ∈ s.rows, pk r ≠ i := by
  simp [find]

theorem findKey_eq_none {s : Store pk uk τ} {k : κ} :
    s.findKey k = none ↔ ∀ r ∈ s.rows, uk r ≠ k := by
  simp [findKey]

/-- No two committed rows share the unique column. -/
theorem rows_eq_of_uk {s : Store pk uk τ} {r r' : ρ} (hr : r ∈ s.rows) (hr' : r' ∈ s.rows)
    (h : uk r = uk r') : r = r' := by
  have hk := findKey_eq_some.mpr ⟨hr, h⟩
  rw [findKey_eq_some.mpr ⟨hr', rfl⟩, Option.some.injEq] at hk
  exact hk.symm

/-- An uncommitted row and a committed one share no key. -/
theorem pending_fresh {s : Store pk uk τ} {t : τ} {r r' : ρ} (hr : r ∈ s.inserts t)
    (hr' : r' ∈ s.rows) : pk r' ≠ pk r ∧ uk r' ≠ uk r := by
  obtain ⟨q, hq, rfl⟩ := List.mem_map.mp hr
  have hq' := List.mem_map_of_mem (f := Prod.snd) (List.mem_filter.mp hq).1
  have hpk := s.pk_nodup
  have huk := s.uk_nodup
  rw [List.map_append, List.nodup_append] at hpk huk
  exact ⟨hpk.2.2 _ (List.mem_map_of_mem hr') _ (List.mem_map_of_mem hq'),
    huk.2.2 _ (List.mem_map_of_mem hr') _ (List.mem_map_of_mem hq')⟩

/-! ## INSERT -/

theorem insert_eq_inserted {s s' : Store pk uk τ} {t : τ} {r : ρ}
    (h : s.insert t r = .inserted s') :
    s'.rows = s.rows ∧ s'.locks = s.locks ∧ s'.pending = (t, r) :: s.pending ∧
      ∀ q ∈ s.entries, pk q ≠ pk r ∧ uk q ≠ uk r := by
  unfold insert at h
  split at h
  · cases h
  · split at h
    · cases h
    · rename_i hn
      obtain rfl := InsertResult.inserted.inj h
      rw [not_or] at hn
      exact ⟨rfl, rfl, rfl, fun q hq => ⟨fun he => hn.1 (he ▸ List.mem_map_of_mem hq),
        fun he => hn.2 (he ▸ List.mem_map_of_mem hq)⟩⟩

/-- A violation names a committed row, or one of the transaction's own, that holds a key. -/
theorem insert_eq_violates {s : Store pk uk τ} {t : τ} {r : ρ} (h : s.insert t r = .violates) :
    ∃ q, (q ∈ s.rows ∨ q ∈ s.inserts t) ∧ (pk q = pk r ∨ uk q = uk r) := by
  unfold insert at h
  split at h
  · cases h
  · rename_i hw
    split at h
    · rename_i hv
      obtain ⟨q, hq, hk⟩ : ∃ q ∈ s.entries, pk q = pk r ∨ uk q = uk r := by
        rcases hv with hv | hv
        · obtain ⟨q, hq, hk⟩ := List.mem_map.mp hv
          exact ⟨q, hq, .inl hk⟩
        · obtain ⟨q, hq, hk⟩ := List.mem_map.mp hv
          exact ⟨q, hq, .inr hk⟩
      refine ⟨q, ?_, hk⟩
      rcases List.mem_append.mp hq with hq | hq
      · exact .inl hq
      · obtain ⟨e, he, rfl⟩ := List.mem_map.mp hq
        by_cases ht : e.1 = t
        · exact .inr (List.mem_map_of_mem (List.mem_filter.mpr ⟨he, by simpa using ht⟩))
        · exact absurd ⟨e, he, ht, hk⟩ hw
    · cases h

/-! ## What each operation leaves of the rows and of the open transactions -/

theorem inserts_cons {s s' : Store pk uk τ} {t : τ} {r : ρ} (h : s'.pending = (t, r) :: s.pending)
    (t' : τ) : s'.inserts t' = if t' = t then r :: s.inserts t' else s.inserts t' := by
  unfold inserts
  rw [h]
  by_cases ht : t' = t
  · simp [ht]
  · simp [ht, Ne.symm ht]

theorem updates_cons {s s' : Store pk uk τ} {t : τ} {u : ι × Patch pk uk}
    (h : s'.locks = (t, u) :: s.locks) (t' : τ) :
    s'.updates t' = if t' = t then u :: s.updates t' else s.updates t' := by
  unfold updates
  rw [h]
  by_cases ht : t' = t
  · simp [ht]
  · simp [ht, Ne.symm ht]

@[simp] theorem rows_amend (s : Store pk uk τ) (t : τ) (i : ι) (p : Patch pk uk) :
    (s.amend t i p).rows = s.rows := rfl

@[simp] theorem updates_amend (s : Store pk uk τ) (t t' : τ) (i : ι) (p : Patch pk uk) :
    (s.amend t i p).updates t' = s.updates t' := rfl

theorem inserts_amend (s : Store pk uk τ) (t t' : τ) (i : ι) (p : Patch pk uk) :
    (s.amend t i p).inserts t' =
      if t' = t then (s.inserts t').map (p.applyAt i) else s.inserts t' := by
  simp only [inserts, amend, List.filter_map, List.map_map]
  have hf : ((fun q : τ × ρ => decide (q.1 = t')) ∘
      fun q : τ × ρ => if q.1 = t then (q.1, p.applyAt i q.2) else q) =
      fun q => decide (q.1 = t') := by
    funext q; simp only [Function.comp_apply]; split <;> rfl
  rw [hf]
  by_cases ht : t' = t
  · subst ht
    rw [if_pos rfl]
    refine List.map_congr_left ?_
    intro q hq
    simp [of_decide_eq_true (List.mem_filter.mp hq).2]
  · rw [if_neg ht]
    refine List.map_congr_left ?_
    intro q hq
    have hq' : q.1 = t' := of_decide_eq_true (List.mem_filter.mp hq).2
    simp [hq', ht]

theorem pending_amend_ne (s : Store pk uk τ) (t : τ) (i : ι) (p : Patch pk uk) :
    ((s.amend t i p).pending.filter fun q => q.1 ≠ t) = s.pending.filter fun q => q.1 ≠ t := by
  simp only [amend, List.filter_map]
  have hf : ((fun q : τ × ρ => decide (q.1 ≠ t)) ∘
      fun q : τ × ρ => if q.1 = t then (q.1, p.applyAt i q.2) else q) =
      fun q => decide (q.1 ≠ t) := by
    funext q; simp only [Function.comp_apply]; split <;> rfl
  rw [hf]
  refine Eq.trans (List.map_congr_left ?_) (List.map_id _)
  intro q hq
  exact if_neg (of_decide_eq_true (List.mem_filter.mp hq).2)

theorem lock_eq_some {s s' : Store pk uk τ} {t : τ} {i : ι} {p : Patch pk uk}
    (h : s.lock t i p = some s') :
    s' = { s with locks := (t, i, p) :: s.locks } ∧ ∀ l ∈ s.locks, l.2.1 = i → l.1 = t := by
  unfold lock at h
  split at h
  · cases h
  · rename_i hn
    exact ⟨(Option.some.inj h).symm, fun l hl hi => not_not.mp fun ht => hn ⟨l, hl, ht, hi⟩⟩

theorem update_eq_some {s s' : Store pk uk τ} {i : ι} {p : Patch pk uk}
    (h : s.update i p = some s') : s' = s.patch i p ∧ ∀ l ∈ s.locks, l.2.1 ≠ i := by
  unfold update at h
  split at h
  · cases h
  · rename_i hn
    exact ⟨(Option.some.inj h).symm, fun l hl hi => hn ⟨l, hl, hi⟩⟩

theorem find_patch (s : Store pk uk τ) (i j : ι) (p : Patch pk uk) :
    (s.patch i p).find j = (s.find j).map (p.applyAt i) := by
  simp only [find, patch, List.find?_map]
  congr 2
  funext r; simp [p.pk_applyAt]

theorem find_patch_ne (s : Store pk uk τ) {i j : ι} (p : Patch pk uk) (h : j ≠ i) :
    (s.patch i p).find j = s.find j := by
  rw [find_patch]
  cases hf : s.find j with
  | none => rfl
  | some r => rw [Option.map_some, p.applyAt_of_ne ((find_eq_some.mp hf).2 ▸ h)]

theorem find_patch_self (s : Store pk uk τ) (i : ι) (p : Patch pk uk) :
    (s.patch i p).find i = (s.find i).map p.apply := by
  rw [find_patch]
  cases hf : s.find i with
  | none => rfl
  | some r => rw [Option.map_some, p.applyAt_of_eq (find_eq_some.mp hf).2, Option.map_some]

/-- The updates of a transaction, on one row. -/
def applyAll (us : List (ι × Patch pk uk)) (r : ρ) : ρ :=
  us.foldr (fun u r => u.2.applyAt u.1 r) r

theorem foldr_patch (us : List (ι × Patch pk uk)) (s : Store pk uk τ) :
    (us.foldr (fun u s' => s'.patch u.1 u.2) s).rows = s.rows.map (applyAll us) ∧
      (us.foldr (fun u s' => s'.patch u.1 u.2) s).pending = s.pending ∧
      (us.foldr (fun u s' => s'.patch u.1 u.2) s).locks = s.locks := by
  induction us with
  | nil => exact ⟨(List.map_id s.rows).symm, rfl, rfl⟩
  | cons u us ih =>
      refine ⟨?_, ih.2.1, ih.2.2⟩
      show (List.foldr _ s us).rows.map (u.2.applyAt u.1) = _
      rw [ih.1, List.map_map]
      rfl

theorem rows_commit (s : Store pk uk τ) (t : τ) :
    (s.commit t).rows = (s.rows ++ s.inserts t).map (applyAll (s.updates t)) :=
  (foldr_patch (s.updates t) (s.land t)).1

theorem pending_commit (s : Store pk uk τ) (t : τ) :
    (s.commit t).pending = s.pending.filter fun q => q.1 ≠ t :=
  (foldr_patch (s.updates t) (s.land t)).2.1

theorem locks_commit (s : Store pk uk τ) (t : τ) :
    (s.commit t).locks = s.locks.filter fun l => l.1 ≠ t := by
  show List.filter _ _ = _
  rw [(foldr_patch (s.updates t) (s.land t)).2.2]
  rfl

theorem inserts_commit (s : Store pk uk τ) (t t' : τ) :
    (s.commit t).inserts t' = if t' = t then [] else s.inserts t' := by
  simp only [inserts, pending_commit, List.filter_filter]
  by_cases ht : t' = t
  · simp [ht]
  · rw [if_neg ht]
    congr 1
    refine List.filter_congr ?_
    intro q _
    by_cases hq : q.1 = t' <;> simp [hq, ht]

theorem updates_commit (s : Store pk uk τ) (t t' : τ) :
    (s.commit t).updates t' = if t' = t then [] else s.updates t' := by
  simp only [updates, locks_commit, List.filter_filter]
  by_cases ht : t' = t
  · simp [ht]
  · rw [if_neg ht]
    congr 1
    refine List.filter_congr ?_
    intro l _
    by_cases hq : l.1 = t' <;> simp [hq, ht]

theorem inserts_rollback (s : Store pk uk τ) (t t' : τ) :
    (s.rollback t).inserts t' = if t' = t then [] else s.inserts t' := by
  simp only [inserts, rollback, List.filter_filter]
  by_cases ht : t' = t
  · simp [ht]
  · rw [if_neg ht]
    congr 1
    refine List.filter_congr ?_
    intro q _
    by_cases hq : q.1 = t' <;> simp [hq, ht]

theorem updates_rollback (s : Store pk uk τ) (t t' : τ) :
    (s.rollback t).updates t' = if t' = t then [] else s.updates t' := by
  simp only [updates, rollback, List.filter_filter]
  by_cases ht : t' = t
  · simp [ht]
  · rw [if_neg ht]
    congr 1
    refine List.filter_congr ?_
    intro l _
    by_cases hq : l.1 = t' <;> simp [hq, ht]

end Store

end ReadCommitted
