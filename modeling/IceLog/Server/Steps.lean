import IceLog.Server.Invariant

/-! Every action whose needs are met keeps the promise. -/
namespace IceLog

open Interleaved Serial

variable {policy : Policy} {pg : Postgres} {w : Moment} {e : ServerEvent} {s : Server} {i j : ℕ}
  {q : Request} {t : String} {c : Conn} {o : Outcome}

theorem fresh_of_next (h : Fresh j (w.next e s)) : e.actor ≠ some j ∧ Fresh j w :=
  ⟨h (w.now, e) (by simp), fun p hp => h p (by simp [hp])⟩

theorem inv_fresh (hi : Inv policy w) (hk : ∀ j, e.actor ≠ some j → Server.Keeps j w.now s)
    (hf : Fresh j (w.next e s)) : Holds j {} s ∧ ∀ q t, ¬ Owes (w.next e s) j q t := by
  obtain ⟨he, hf'⟩ := fresh_of_next hf
  exact ⟨(hk j he).holds (hi.fresh j hf').1, fun q t => Owes.fresh hf⟩

/-- The promise of a step that changes no row and adds no cache entry, except entries that are
what the database answers. -/
theorem promise_quiet (hi : Inv policy w) (hs : s.Sound)
    (hk : ∀ j, e.actor ≠ some j → Server.Keeps j w.now s) (hrows : w.now.db.SameRows s.db)
    (hn : w.now.db.NextLe s.db)
    (hcache : policy.Clean → ∀ t n rows,
      (PartitionRegistry.makeCacheKey t n, rows) ∈ s.cache.entries →
        w.now.db.queryPartitions t n = some rows ∨
          ((PartitionRegistry.makeCacheKey t n, rows) ∈ w.now.cache.entries ∧
            ∀ j q r, e ≠ .act j q (.cacheInvalidate (t ++ ":")) r))
    (hdebts : policy.Clean → ∀ j q t, Owes w j q t →
      (s.tableLocks t).writer = some j ∨ q.Detaches t) : Promise policy w e s where
  inv := {
    sound := hs
    fresh := fun j hf => inv_fresh hi hk hf
    consistent := fun hc => @Db.consistent_of_slices _ _ policy.Steady (hi.consistent hc)
      (hrows.unique (hi.consistent hc).unique) hn.snapshots fun id => .inl (hrows.slice id)
    linked := fun hc hst => Db.linked_of_slices (hi.consistent hc) (hi.linked hc hst) hst
      fun id => .inl (hrows.slice id)
    debts := fun hc j q t h => hdebts hc j q t (h.of_next hrows)
    coherent := fun hc t n rows hm => by
      rcases hcache hc t n rows hm with h | ⟨hm, he⟩
      · exact .inl (((hrows.sameTable t).queryPartitions n).trans h)
      · rcases hi.coherent hc t n rows hm with h | ⟨j, q, h⟩
        · exact .inl (((hrows.sameTable t).queryPartitions n).trans h)
        · exact .inr ⟨j, q, owes_next.mpr (.inr ⟨h, he j q⟩)⟩ }
  keeps := hk
  nextLe := hn
  writes := fun _ id => .inl (hrows.slice id)
  debts := fun _ _ _ _ h => .inl (h.of_next hrows)
  alters := fun _ id r r' hr hr' hne => by
    have hsame : s.db.tables.row id = w.now.db.tables.row id :=
      congrArg Slice.table (hrows.slice id)
    rw [hsame, hr] at hr'
    cases hr'
    exact absurd rfl hne
  kept := fun _ id r hr hd _ => by
    have hsame : s.db.tables.row id = w.now.db.tables.row id :=
      congrArg Slice.table (hrows.slice id)
    exact ⟨r, hsame.trans hr, rfl, hd⟩

/-- The same for a step that leaves the cache alone. -/
theorem promise_still (hi : Inv policy w) (hs : s.Sound)
    (hk : ∀ j, e.actor ≠ some j → Server.Keeps j w.now s) (hrows : w.now.db.SameRows s.db)
    (hn : w.now.db.NextLe s.db) (hcache : s.cache = w.now.cache)
    (he : ∀ j q t r, e ≠ .act j q (.cacheInvalidate t) r)
    (hdebts : policy.Clean → ∀ j q t, Owes w j q t →
      (s.tableLocks t).writer = some j ∨ q.Detaches t) : Promise policy w e s :=
  promise_quiet hi hs hk hrows hn
    (fun _ _ _ _ hm => .inr ⟨hcache ▸ hm, fun j q r => he j q _ r⟩) hdebts

/-- The promise of a step that commits a change to one table. -/
theorem promise_write {a : Act} {r : a.Result} (id : ℕ) (hi : Inv policy w) (hs : s.Sound)
    (hk : ∀ j, j ≠ i → Server.Keeps j w.now s) (hn : w.now.db.NextLe s.db)
    (hcache : s.cache = w.now.cache) (hlocks : s.tableLocks = w.now.tableLocks)
    (ha : ∀ t, a ≠ .cacheInvalidate t)
    (hothers : policy.Clean → ∀ id', id' ≠ id → s.db.slice id' = w.now.db.slice id')
    (hw : policy.Clean → Writes policy i w.now s.db id)
    (hd : policy.Clean → ∀ t r, w.now.db.find t = some (id, r) → q.Detaches t →
      s.db.find t = none)
    (halters : policy.Clean → ∀ r r', w.now.db.tables.row id = some r →
      s.db.tables.row id = some r' → r'.schemaVersion ≠ r.schemaVersion →
        (∃ conn, a = .exec conn .commit) ∧ q.Alters r.tableName)
    (hkept : policy.Clean → ∀ r, w.now.db.tables.row id = some r → r.isDeleted = false →
      ¬ q.Detaches r.tableName →
        ∃ r', s.db.tables.row id = some r' ∧ r'.tableName = r.tableName ∧ r'.isDeleted = false) :
    Promise policy w (.act i q a r) s := by
  have hslices : policy.Clean → ∀ id', s.db.slice id' = w.now.db.slice id' ∨
      TableChange policy.Steady s.db.snapshots.next (w.now.db.slice id') (s.db.slice id') := by
    intro hc id'
    by_cases hid : id' = id
    · exact .inr (hid ▸ (hw hc).change)
    · exact .inl (hothers hc id' hid)
  have hchanged : policy.Clean → ∀ t, w.now.db.Changed t s.db →
      ∃ r, w.now.db.find t = some (id, r) := by
    rintro hc t ⟨hlive, n, hne⟩
    obtain ⟨⟨id', r⟩, hf⟩ := Option.isSome_iff_exists.mp hlive
    by_cases hid : id' = id
    · exact ⟨r, hid ▸ hf⟩
    · exact absurd ((Db.sameTable_of_slice hs.backend.unique hf
        (hothers hc id' hid)).queryPartitions n) hne
  have hnew : policy.Clean → ∀ t, w.now.db.Changed t s.db →
      (w.now.tableLocks t).writer = some i ∧ (q.Detaches t → s.db.find t = none) := by
    intro hc t h
    obtain ⟨r, hf⟩ := hchanged hc t h
    obtain ⟨hr, hname⟩ := Db.row_of_find hf
    simp only [TableRec.named, Bool.and_eq_true, beq_iff_eq] at hname
    exact ⟨hname.1 ▸ (hw hc).before r hr, hd hc t r hf⟩
  have howes : policy.Clean → ∀ j q' t, Owes (w.next (.act i q a r) s) j q' t → Owes w j q' t ∨
      ((w.now.tableLocks t).writer = some j ∧ (q'.Detaches t → s.db.find t = none)) := by
    intro hc j q' t h
    rcases owes_next.mp h with ⟨a', r', he, hch⟩ | ⟨h, -⟩
    · cases he
      exact .inr (hnew hc t hch)
    · exact .inl h
  have hkeeps : ∀ j, (Event.act i q a r : ServerEvent).actor ≠ some j → Server.Keeps j w.now s :=
    fun j hj => hk j fun hji => hj (by simp [Event.actor, hji])
  refine ⟨⟨hs, fun j hf => inv_fresh hi hkeeps hf, fun hc => ?_, fun hc hst => ?_,
    fun hc j q' t h => ?_, fun hc t n rows hm => ?_⟩, hkeeps, hn, fun hc id' => ?_, howes,
    fun hc id' r₁ r₂ hr₁ hr₂ hne => ?_, fun hc id' r₁ hr₁ hdel hq => ?_⟩
  · exact Db.consistent_of_slices (hi.consistent hc) hs.backend.unique hn.snapshots (hslices hc)
  · exact Db.linked_of_slices (hi.consistent hc) (hi.linked hc hst) hst (hslices hc)
  · show (s.tableLocks t).writer = some j ∨ _
    rw [hlocks]
    rcases howes hc j q' t h with h | h
    · exact hi.debts hc j q' t h
    · exact .inl h.1
  · change (_, rows) ∈ s.cache.entries at hm
    rw [hcache] at hm
    rcases hi.coherent hc t n rows hm with h | ⟨j, q', h⟩
    · by_cases hch : w.now.db.Changed t s.db
      · exact .inr ⟨i, q, owes_next.mpr (.inl ⟨a, r, rfl, hch⟩)⟩
      · left
        by_contra hne
        refine hch ⟨?_, n, fun heq => hne (heq.trans h)⟩
        rw [Db.queryPartitions] at h
        split at h
        · cases h
        · obtain ⟨p, hp, -⟩ := Option.map_eq_some_iff.mp h
          simp [hp]
    · refine .inr ⟨j, q', owes_next.mpr (.inr ⟨h, fun r' he => ?_⟩)⟩
      cases he
      exact ha _ rfl
  · by_cases hid : id' = id
    · exact .inr ⟨i, rfl, hid ▸ hw hc⟩
    · exact .inl (hothers hc id' hid)
  · by_cases hid : id' = id
    · subst hid
      obtain ⟨⟨conn, rfl⟩, hq⟩ := halters hc r₁ r₂ hr₁ hr₂ hne
      exact ⟨i, q, conn, r, rfl, hq⟩
    · have hsame : s.db.tables.row id' = w.now.db.tables.row id' :=
        congrArg Slice.table (hothers hc id' hid)
      rw [hsame, hr₁] at hr₂
      cases hr₂
      exact absurd rfl hne
  · by_cases hid : id' = id
    · subst hid
      exact hkept hc r₁ hr₁ hdel (hq i q a r rfl)
    · exact ⟨r₁, (congrArg Slice.table (hothers hc id' hid)).trans hr₁, rfl, hdel⟩

/-! The actions, one kind at a time. -/

section actions
variable {m' : SharedMutex}

theorem debts_of_keeps (hi : Inv policy w) (hc : policy.Clean)
    (hw : ∀ j t, (w.now.tableLocks t).writer = some j → (s.tableLocks t).writer = some j)
    (j : ℕ) (q : Request) (t : String) (h : Owes w j q t) :
    (s.tableLocks t).writer = some j ∨ q.Detaches t :=
  (hi.debts hc j q t h).imp_left (hw j t)

theorem promise_lockShared {r : Unit} (hi : Inv policy w)
    (hm : (w.now.tableLocks t).lockShared i = some m') :
    Promise policy w (.act i q (.lockShared t) r) (w.now.setLock t m') := by
  refine promise_still hi (Server.lockShared_sound hi.sound hm)
    (fun j hj => Server.lockShared_keeps hm fun h => hj (by simp [Event.actor, h])) (.refl _)
    (.refl _) rfl (by simp) fun hc => debts_of_keeps hi hc fun j u hu => ?_
  obtain ⟨hw, rfl⟩ := Server.lockShared_eq_some hm
  by_cases hut : u = t
  · subst hut
    simpa using hu
  · rwa [Server.setLock_of_ne _ _ hut]

theorem promise_lockExclusive {r : Unit} (hi : Inv policy w)
    (hm : (w.now.tableLocks t).lock i = some m') :
    Promise policy w (.act i q (.lockExclusive t) r) (w.now.setLock t m') := by
  refine promise_still hi (Server.lock_sound hi.sound hm)
    (fun j hj => Server.lock_keeps hm fun h => hj (by simp [Event.actor, h])) (.refl _)
    (.refl _) rfl (by simp) fun hc => debts_of_keeps hi hc fun j u hu => ?_
  obtain ⟨hw, -, rfl⟩ := Server.lock_eq_some hm
  by_cases hut : u = t
  · subst hut
    simp [hw] at hu
  · rwa [Server.setLock_of_ne _ _ hut]

theorem promise_unlockShared {r : Unit} (hi : Inv policy w) :
    Promise policy w (.act i q (.unlockShared t) r)
      (w.now.setLock t ((w.now.tableLocks t).unlockShared i)) := by
  refine promise_still hi (Server.unlockShared_sound hi.sound)
    (fun j hj => Server.unlockShared_keeps fun h => hj (by simp [Event.actor, h])) (.refl _)
    (.refl _) rfl (by simp) fun hc => debts_of_keeps hi hc fun j u hu => ?_
  by_cases hut : u = t
  · subst hut
    simpa [SharedMutex.unlockShared] using hu
  · rwa [Server.setLock_of_ne _ _ hut]

theorem promise_unlockExclusive {r : Unit} (hi : Inv policy w)
    (hw : (w.now.tableLocks t).writer = some i)
    (hd : policy.Clean → ∀ q', Owes w i q' t → q'.Detaches t) :
    Promise policy w (.act i q (.unlockExclusive t) r)
      (w.now.setLock t (w.now.tableLocks t).unlock) := by
  refine promise_still hi (Server.unlock_sound hi.sound)
    (fun j hj => Server.unlock_keeps hw fun h => hj (by simp [Event.actor, h])) (.refl _)
    (.refl _) rfl (by simp) fun hc j q' u ho => ?_
  by_cases hut : u = t
  · subst hut
    rcases hi.debts hc j q' u ho with h | h
    · rw [hw] at h
      cases h
      exact .inr (hd hc q' ho)
    · exact .inr h
  · rw [Server.setLock_of_ne _ _ hut]
    exact hi.debts hc j q' u ho

theorem promise_acquire {r : Option Conn} (hi : Inv policy w)
    (ha : Server.Acquired w.now i o r s) : Promise policy w (.act i q .acquire r) s := by
  obtain ⟨hs, hk, ⟨hdb, -, hcache⟩, -⟩ := Server.acquired_spec hi.sound ha
  have hlocks : s.tableLocks = w.now.tableLocks := by cases ha <;> rfl
  refine promise_still hi hs (fun j hj => hk j fun h => hj (by simp [Event.actor, h])) ?_ ?_ hcache
    (by simp) fun hc => debts_of_keeps hi hc fun j u hu => hlocks ▸ hu
  · rw [Server.db, Server.db, hdb]
    exact .refl _
  · rw [Server.db, Server.db, hdb]
    exact .refl _

theorem promise_release {r : Unit} (hi : Inv policy w) (hc : w.now.holder c = some i)
    (hcl : (w.now.backend.session c).Closed) :
    Promise policy w (.act i q (.release c) r) (w.now.release c) := by
  obtain ⟨hs, hk, -⟩ := Server.release_spec hi.sound hc hcl
  exact promise_still hi hs (fun j hj => hk j fun h => hj (by simp [Event.actor, h])) (.refl _)
    (.refl _) rfl (by simp) fun hc => debts_of_keeps hi hc fun _ _ hu => hu

theorem promise_exec {k : Command} {a : Answer} {r : Bool} {b' : Backend} (hi : Inv policy w)
    (hc : w.now.holder c = some i) (hn : k = .commit → policy.Clean → ∀ u p,
      w.now.backend.session c = .inTransaction u p → ∃ t id, Committable policy i q w.now p t id)
    (hx : Backend.Controlled w.now.backend c k a r b') :
    Promise policy w (.act i q (.exec c k) r) { w.now with backend := b' } := by
  have hopen := hi.sound.held c i hc
  have hs := Server.statement_sound hi.sound hc (hx.sound hi.sound.backend hopen) hx.opened
    fun d hd => hx.session_of_ne hd
  have hk : ∀ j, j ≠ i → Server.Keeps j w.now { w.now with backend := b' } := fun j hj =>
    Server.statement_keeps hc hj (fun d hd => hx.session_of_ne hd)
      fun d u p hd hp => hx.frame hi.sound.backend hd hp
  cases hx with
  | moved hq _ _ _ _ =>
    exact promise_still hi hs (fun j hj => hk j fun h => hj (by simp [Event.actor, h])) hq.sameRows
      hq.nextLe rfl (by simp) fun hc => debts_of_keeps hi hc fun _ _ hu => hu
  | @committed u p _ _ hcommit hsess _ =>
    by_cases hclean : policy.Clean
    · obtain ⟨t, id, hcan⟩ := hn hcommit hclean u p hsess
      have hrow : ∀ r, w.now.db.tables.row id = some r → r.tableName = t := by
        intro r hr
        obtain ⟨r', hf⟩ := hcan.found
        obtain ⟨hr', hname⟩ := Db.row_of_find hf
        simp only [TableRec.named, Bool.and_eq_true, beq_iff_eq] at hname
        rw [hr] at hr'
        cases hr'
        exact hname.1
      refine promise_write id hi hs hk (Db.nextLe_apply _ _) rfl rfl (by simp)
        (fun _ id' hid => hcan.within.slice_of_ne hid)
        (fun _ => ⟨fun r hr => hrow r hr ▸ hcan.lock, fun r hr => hcan.names r hr ▸ hcan.lock,
          fun hnone => ?_, hcan.change⟩) ?_
        (fun _ r r' hr hr' hne => ⟨⟨c, by rw [hcommit]⟩, hrow r hr ▸ hcan.alters r r' hr hr' hne⟩)
        fun _ r hr _ hq => ?_
      · obtain ⟨r, hf⟩ := hcan.found
        rw [(Db.row_of_find hf).1] at hnone
        cases hnone
      swap
      · obtain ⟨r', hr', hdel⟩ := hcan.kept (hrow r hr ▸ hq)
        exact ⟨r', hr', (hcan.names r' hr').trans (hrow r hr).symm, hdel⟩
      intro _ t' r hf hd
      obtain ⟨hr, hname⟩ := Db.row_of_find hf
      simp only [TableRec.named, Bool.and_eq_true, beq_iff_eq] at hname
      obtain rfl : t = t' := (hrow r hr).symm.trans hname.1
      rw [Db.find_eq_none_iff]
      intro k r' hr'
      change (w.now.backend.db.apply p).tables.row k = some r' at hr'
      by_contra hn'
      have hn' : r'.named t = true := by simpa using hn'
      simp only [TableRec.named, Bool.and_eq_true, beq_iff_eq, Bool.not_eq_true'] at hn'
      by_cases hkid : k = id
      · subst hkid
        simp [hcan.detached hd r' hr'] at hn'
      · have hsl := congrArg Slice.table (hcan.within.slice_of_ne hkid)
        have hr'' : w.now.db.tables.row k = some r' := hsl.symm.trans hr'
        exact hkid (hi.sound.backend.unique id r hr k r' hr'' (hn'.1.trans (hrow r hr).symm))
    · exact promise_write 0 hi hs hk (Db.nextLe_apply _ _) rfl rfl (by simp)
        (fun h => absurd h hclean) (fun h => absurd h hclean) (fun h => absurd h hclean)
        (fun h => absurd h hclean) fun h => absurd h hclean

theorem promise_insertTable {a : Act} {r : a.Result} {row : TableRec} {b' : Backend}
    {schema spec props : String} (hi : Inv policy w) (hs : Server.Sound { w.now with backend := b' })
    (hk : ∀ j, j ≠ i → Server.Keeps j w.now { w.now with backend := b' })
    (ha : ∀ t, a ≠ .cacheInvalidate t) (hc : policy.Clean)
    (hb : b'.db = ((Sql.insertTable row.tableName schema spec props).draw w.now.db).apply
      { tables := Patch.write w.now.db.tables.next row })
    (hw : (w.now.tableLocks row.tableName).writer = some i)
    (hcur : row.currentSnapshotId = 0) (hversion : row.schemaVersion = 1) :
    Promise policy w (.act i q a r) { w.now with backend := b' } := by
  have hnew := (hi.consistent hc).wellFormed w.now.db.tables.next
  have horphan : w.now.db.slice w.now.db.tables.next = .empty := hnew.orphans (Rows.row_next _)
  obtain ⟨hslice, hothers⟩ := @Db.slice_insertTable w.now.db row.tableName schema
    spec props row horphan
  rw [← hb] at hslice hothers
  have hnext : w.now.db.NextLe b'.db := by
    rw [hb]
    exact (Db.nextLe_draw _ _).trans (Db.nextLe_apply _ _)
  refine promise_write w.now.db.tables.next hi hs hk hnext rfl rfl ha ?_ ?_ ?_ ?_ ?_
  · intro _ id' hid
    exact hothers id' hid
  · intro _
    refine ⟨fun r hr => ?_, fun r hr => ?_, fun _ => Nat.le_refl _, ?_⟩
    · rw [Rows.row_next] at hr
      cases hr
    · have : (b'.db.slice w.now.db.tables.next).table = some r := hr
      rw [hslice] at this
      cases this
      exact hw
    · rw [Server.db, hslice, horphan]
      exact .created hcur hversion
  · intro _ t r hf
    have := (Db.row_of_find hf).1
    rw [Rows.row_next] at this
    cases this
  · intro _ r r' hr
    rw [Rows.row_next] at hr
    cases hr
  · intro _ r hr
    rw [Rows.row_next] at hr
    cases hr

theorem promise_renameTable {a : Act} {r : a.Result} {b' : Backend} {newName oldName : String}
    (hi : Inv policy w) (hs : Server.Sound { w.now with backend := b' })
    (hk : ∀ j, j ≠ i → Server.Keeps j w.now { w.now with backend := b' })
    (ha : ∀ t, a ≠ .cacheInvalidate t)
    (hb : b'.db = w.now.db.apply {
      tables := w.now.db.tables.updateWhere (fun _ r => r.named oldName)
        fun r => { r with tableName := newName } })
    (hnew : (w.now.tableLocks newName).writer = some i)
    (hold : (w.now.tableLocks oldName).writer = some i) (hne : newName ≠ oldName)
    (hq : q.Detaches oldName) :
    Promise policy w (.act i q a r) { w.now with backend := b' } := by
  have hnext : w.now.db.NextLe b'.db := hb ▸ Db.nextLe_apply _ _
  cases hf : w.now.db.find oldName with
  | none =>
    have hp : w.now.db.tables.updateWhere (fun _ r => r.named oldName)
        (fun r => { r with tableName := newName }) = Patch.none := by
      funext k
      exact Rows.updateWhere_eq_none.mpr (Db.find_eq_none_iff.mp hf k)
    rw [hp, Db.apply_none] at hb
    exact promise_still hi hs (fun j hj => hk j fun h => hj (by simp [Event.actor, h]))
      (hb ▸ .refl _) hnext rfl (fun j q' t r he => by cases he; exact ha _ rfl)
      fun hc => debts_of_keeps hi hc fun _ _ hu => hu
  | some found =>
    obtain ⟨id, row⟩ := found
    obtain ⟨hrow, hname⟩ := Db.row_of_find hf
    have hname' : row.tableName = oldName := by
      simp only [TableRec.named, Bool.and_eq_true, beq_iff_eq] at hname
      exact hname.1
    have hu := hi.sound.backend.unique
    obtain ⟨hwithin, hslice⟩ := Db.update_named (hname' ▸ hu id row hrow) rfl
    rw [← hb] at hslice
    have hslice' : b'.db.slice id =
        { w.now.db.slice id with table := some { row with tableName := newName } } := by
      rw [hslice, Slice.mapTable]
      simp [Db.slice, hrow, hname]
    refine promise_write id hi hs hk hnext rfl rfl ha ?_ ?_ ?_ ?_ ?_
    · intro _ id' hid
      rw [Server.db, hb, hwithin.slice_of_ne hid]
    · intro _
      refine ⟨fun r hr => ?_, fun r hr => ?_, fun hnone => ?_, ?_⟩
      · rw [hrow] at hr
        cases hr
        exact hname' ▸ hold
      · have : (b'.db.slice id).table = some r := hr
        rw [hslice'] at this
        cases this
        exact hnew
      · rw [hrow] at hnone
        cases hnone
      · rw [Server.db, hslice']
        exact .renamed newName hrow
    · intro _ t r hft _
      obtain ⟨hr, hn⟩ := Db.row_of_find hft
      rw [hrow] at hr
      cases hr
      have ht : row.tableName = t := by
        simp only [TableRec.named, Bool.and_eq_true, beq_iff_eq] at hn
        exact hn.1
      rw [Db.find_eq_none_iff]
      intro k r' hr'
      by_contra hn'
      have hn' : r'.tableName = t ∧ r'.isDeleted = false := by
        simpa [TableRec.named] using hn'
      by_cases hk' : k = id
      · subst hk'
        have : (b'.db.slice k).table = some r' := hr'
        rw [hslice'] at this
        cases this
        exact hne (hn'.1.trans (ht.symm.trans hname'))
      · have hsl := congrArg Slice.table (hwithin.slice_of_ne hk')
        rw [← hb] at hsl
        have hr'' : w.now.db.tables.row k = some r' := hsl.symm.trans hr'
        exact hk' (hu id row hrow k r' hr'' (hn'.1.trans ht.symm))
    · intro _ r r' hr hr' hne
      rw [hrow] at hr
      cases hr
      have : (b'.db.slice id).table = some r' := hr'
      rw [hslice'] at this
      cases this
      exact absurd rfl hne
    · intro _ r hr _ hq'
      rw [hrow] at hr
      cases hr
      exact absurd (hname' ▸ hq) hq'

theorem promise_execParams {sql : Sql} {a : Answer} {r : PGresult sql.Row} {b' : Backend}
    (hi : Inv policy w) (hc : w.now.holder c = some i)
    (hn : StatementNeeds policy i q c w.now sql)
    (hx : Backend.Executed pg w.now.backend c sql a r b') :
    Promise policy w (.act i q (.execParams c sql) r) { w.now with backend := b' } := by
  have hopen := hi.sound.held c i hc
  have hclosed : sql.namesTables = true → (w.now.backend.session c).Closed := by
    intro hs
    cases sql with
    | insertTable | renameTable => exact hn.1
    | _ => cases hs
  have hs := Server.statement_sound hi.sound hc (hx.sound hi.sound.backend hopen hclosed) hx.opened
    fun d hd => hx.session_of_ne hd
  have hk : ∀ j, j ≠ i → Server.Keeps j w.now { w.now with backend := b' } := fun j hj =>
    Server.statement_keeps hc hj (fun d hd => hx.session_of_ne hd)
      fun d u p hd hp => hx.frame hi.sound.backend hd hp
  have hstill : w.now.db.SameRows b'.db →
      Promise policy w (.act i q (.execParams c sql) r) { w.now with backend := b' } := fun hrows =>
    promise_still hi hs (fun j hj => hk j fun h => hj (by simp [Event.actor, h])) hrows
      hx.nextLe rfl (by simp) fun hc => debts_of_keeps hi hc fun _ _ hu => hu
  cases hx with
  | failed _ hq _ => exact hstill hq.sameRows
  | added => exact hstill (Db.sameRows_draw sql _)
  | @committed _ _ p _ hidle hr hw _ =>
    cases hh : sql.harmless with
    | true =>
      exact hstill ((Db.sameRows_draw sql _).trans (Sql.run_harmless hh hr _))
    | false =>
      have hn' : policy.Clean ∨ ¬ policy.Clean := Classical.em _
      rcases hn' with hclean | hclean
      · cases sql with
        | insertTable name schema spec props =>
          rcases Sql.run_insertTable hr with ⟨-, rfl⟩ | ⟨row, rfl, -, hver, -, hcur, -, -, -, -, rfl⟩
          · refine hstill ((Db.sameRows_draw (.insertTable name schema spec props) _).trans ?_)
            exact (Db.apply_none _).symm ▸ .refl _
          · exact promise_insertTable hi hs hk (by simp) hclean rfl (hn.2 hclean) hcur hver
        | renameTable newName oldName =>
          obtain ⟨rfl, -⟩ := Sql.run_renameTable hr
          obtain ⟨hnew, hold, hne, hq⟩ := hn.2 hclean
          exact promise_renameTable hi hs hk (by simp) rfl hnew hold hne hq
        | _ => first | exact absurd hidle hn | cases hh
      · exact promise_write 0 hi hs hk ((Db.nextLe_draw sql _).trans (Db.nextLe_apply _ _))
          rfl rfl (by simp) (fun h => absurd h hclean) (fun h => absurd h hclean)
          (fun h => absurd h hclean) (fun h => absurd h hclean) fun h => absurd h hclean

/-- An action on nothing but the cache or the transaction table. -/
theorem sound_memory {cache : Cache String (List PartitionRow)} {mvcc : MVCCManager}
    (hs : w.now.Sound) : Server.Sound { w.now with cache := cache, mvcc := mvcc } :=
  ⟨hs.exclusion, hs.nodup, hs.pooled, hs.held, hs.closed, hs.backend⟩

theorem keeps_memory {cache : Cache String (List PartitionRow)} {mvcc : MVCCManager} (j : ℕ) :
    Server.Keeps j w.now { w.now with cache := cache, mvcc := mvcc } :=
  ⟨fun _ => .rfl, fun _ => .rfl, fun _ => .rfl, fun _ _ => rfl,
    fun _ _ _ _ _ => .of_sameRows (.refl _)⟩

theorem promise_mvcc {a : Act} {r : a.Result} {mvcc : MVCCManager} (hi : Inv policy w)
    (ha : ∀ t, a ≠ .cacheInvalidate t) :
    Promise policy w (.act i q a r) { w.now with mvcc := mvcc } :=
  promise_still hi (sound_memory hi.sound) (fun j _ => keeps_memory j) (.refl _) (.refl _) rfl
    (fun j q' t r he => by cases he; exact ha _ rfl)
    fun hc => debts_of_keeps hi hc fun _ _ hu => hu

theorem promise_cacheGet {key : String} {r : Option (List PartitionRow)} (hi : Inv policy w) :
    Promise policy w (.act i q (.cacheGet key) r)
      { w.now with cache := (w.now.cache.get key).2 } := by
  refine promise_quiet hi (sound_memory hi.sound) (fun j _ => keeps_memory j) (.refl _) (.refl _)
    (fun _ t n rows hm => .inr ⟨?_, by simp⟩) fun hc => debts_of_keeps hi hc fun _ _ hu => hu
  exact (Cache.mem_get _ _ _).mp hm

theorem promise_cachePut {key : String} {rows : List PartitionRow} {r : Unit}
    {cache : Cache String (List PartitionRow)} (hi : Inv policy w)
    (hp : w.now.cache.put key rows = some cache)
    (hn : ∃ t n, key = PartitionRegistry.makeCacheKey t n ∧ i ∈ (w.now.tableLocks t).readers ∧
      (policy.Clean → w.now.db.queryPartitions t n = some rows)) :
    Promise policy w (.act i q (.cachePut key rows) r) { w.now with cache := cache } := by
  refine promise_quiet hi (sound_memory hi.sound) (fun j _ => keeps_memory j) (.refl _) (.refl _)
    (fun hc t n rows' hm => ?_) fun hc => debts_of_keeps hi hc fun _ _ hu => hu
  obtain ⟨t', n', rfl, -, hq⟩ := hn
  rcases Cache.mem_put hp hm with he | he
  · simp only [Prod.mk.injEq] at he
    obtain ⟨ht, hn⟩ := PartitionRegistry.makeCacheKey_inj he.1
    subst ht hn
    exact .inl (he.2 ▸ hq hc)
  · exact .inr ⟨he.1, by simp⟩

theorem promise_cacheInvalidate {keyPrefix : String} {r : ℕ} (hi : Inv policy w) :
    Promise policy w (.act i q (.cacheInvalidate keyPrefix) r)
      { w.now with
        cache := (w.now.cache.invalidateIf fun key =>
          keyPrefix.toList.isPrefixOf key.toList).1 } := by
  refine promise_quiet hi (sound_memory hi.sound) (fun j _ => keeps_memory j) (.refl _) (.refl _)
    (fun _ t n rows hm => .inr ?_) fun hc => debts_of_keeps hi hc fun _ _ hu => hu
  obtain ⟨hm, hp⟩ := (Cache.mem_invalidateIf _ _ _).mp hm
  refine ⟨hm, fun j q' r' he => ?_⟩
  cases he
  rw [PartitionRegistry.prefix_makeCacheKey] at hp
  cases hp

end actions

theorem performed_of_exec {a : Act} {r : a.Result} {u : Server}
    (hx : (server pg policy).Exec i q a u r s) :
    ∃ o, policy.allows q a o = true ∧ Server.Performed pg o i u a r s := by
  obtain ⟨o, ho, hp⟩ := hx
  exact ⟨o, ho, Server.perform_cases hp⟩

/-- Every action keeps the promise. -/
theorem promise_act {a : Act} {r : a.Result} (hi : Inv policy w) (hn : Needs policy i q a w)
    (hx : (server pg policy).Exec i q a w.now r s) : Promise policy w (.act i q a r) s := by
  obtain ⟨o, -, hp⟩ := performed_of_exec hx
  cases hp with
  | lockShared hm => exact promise_lockShared hi hm
  | lockExclusive hm => exact promise_lockExclusive hi hm
  | unlockShared => exact promise_unlockShared hi
  | unlockExclusive => exact promise_unlockExclusive hi hn.1 hn.2
  | acquire ha => exact promise_acquire hi ha
  | release => exact promise_release hi hn.1 hn.2
  | exec _ he => exact promise_exec hi hn.1 hn.2 (Backend.exec_cases he)
  | execParams _ he => exact promise_execParams hi hn.1 hn.2 (Backend.execParams_cases he)
  | cacheGet => exact promise_cacheGet hi
  | cachePut hc => exact promise_cachePut hi hc hn
  | cacheInvalidate => exact promise_cacheInvalidate hi
  | fetchAddTxnId | registerTransaction | commitTransaction | abortTransaction =>
    exact promise_mvcc hi (by simp)
  | loadSnapshot => exact @promise_mvcc policy w i q .loadSnapshot _ w.now.mvcc hi (by simp)

theorem promise_call (hi : Inv policy w) : Promise policy w (.call i q) w.now := by
  exact promise_still hi hi.sound (fun j _ => .refl j _) (.refl _) (.refl _) rfl (by simp)
    fun hc => debts_of_keeps hi hc fun _ _ hu => hu

theorem promise_drift (hi : Inv policy w) (hd : Server.Drifts w.now s) :
    Promise policy w .drift s := by
  obtain ⟨steady, clock, -, -, rfl⟩ := hd
  have hb : Backend.Sound { w.now.backend with clock := clock } :=
    ⟨hi.sound.backend.opened, hi.sound.backend.drawn, hi.sound.backend.names,
      hi.sound.backend.apart, hi.sound.backend.unique⟩
  refine promise_still hi ⟨hi.sound.exclusion, hi.sound.nodup, hi.sound.pooled, hi.sound.held,
    hi.sound.closed, hb⟩ (fun j _ => ?_) (.refl _) (.refl _) rfl (by simp)
    fun hc => debts_of_keeps hi hc fun _ _ hu => hu
  exact ⟨fun _ => .rfl, fun _ => .rfl, fun _ => .rfl, fun _ _ => rfl,
    fun _ _ _ _ _ => .of_sameRows (.refl _)⟩

/-- The contract of the server. -/
def contract (pg : Postgres) (policy : Policy) : Contract (server pg policy) where
  inv := Inv policy
  needs := Needs policy
  promise := Promise policy
  act := promise_act
  call := fun hi _ _ => promise_call hi
  drift := promise_drift
  keeps := fun _ h => h.inv

/-! What a promise gives to a thread that has a lock. -/

/-- Who does not have the lock of a table leaves it alone. -/
theorem Promise.untouched (h : Promise policy w e s) (hc : policy.Clean)
    (hne : ∀ i, e.actor = some i → (w.now.tableLocks t).writer ≠ some i) :
    Db.SameTable t w.now.db s.db := by
  have hu' := (h.inv.consistent hc).unique
  cases hf : w.now.db.find t with
  | some p =>
    obtain ⟨id, r⟩ := p
    refine Db.sameTable_of_slice hu' hf ?_
    rcases h.writes hc id with hs | ⟨i, hi', hw⟩
    · exact hs
    · obtain ⟨hr, hname⟩ := Db.row_of_find hf
      simp only [TableRec.named, Bool.and_eq_true, beq_iff_eq] at hname
      exact absurd (hname.1 ▸ hw.before r hr) (hne i hi')
  | none =>
    refine ⟨?_, fun id r hf' => by simp [hf] at hf'⟩
    rw [hf, Db.find_eq_none_iff]
    intro k r hr
    by_contra hn
    have hn : r.named t = true := by simpa using hn
    rcases h.writes hc k with hs | ⟨i, hi', hw⟩
    · have hr' : w.now.db.tables.row k = some r := (congrArg Slice.table hs).symm.trans hr
      simp [Db.find_eq_none_iff.mp hf k r hr'] at hn
    · simp only [TableRec.named, Bool.and_eq_true, beq_iff_eq] at hn
      exact hne i hi' (hn.1 ▸ hw.after r hr)

/-- Others leave a locked table alone. -/
theorem Promise.sameTable (hi : Inv policy w) (h : Promise policy w e s) (hc : policy.Clean)
    (he : e.actor ≠ some j) (hl : w.now.Locks j t) : Db.SameTable t w.now.db s.db := by
  refine h.untouched hc fun i hi' hw => ?_
  rcases hl with hl | hl
  · rw [hl] at hw
    exact he (hw ▸ hi')
  · rw [hi.sound.exclusion t i hw] at hl
    simp at hl

end IceLog
