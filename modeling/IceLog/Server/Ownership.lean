import Mathlib.Data.Finset.Insert
import IceLog.Db.Sessions
import IceLog.Server.State

/-! Which thread has which lock and which connection. An action moves what its own thread has,
and nothing else. -/
namespace IceLog

open Interleaved

/-- What a thread has. -/
structure Held where
  exclusive : List String := []
  shared : List String := []
  conn : Option Conn := none

/-- Thread `i` has `h` and nothing more. -/
structure Holds (i : ℕ) (h : Held) (s : Server) : Prop where
  writer : ∀ t, (s.tableLocks t).writer = some i ↔ t ∈ h.exclusive
  reader : ∀ t, i ∈ (s.tableLocks t).readers ↔ t ∈ h.shared
  holder : ∀ c, s.holder c = some i ↔ h.conn = some c
  nodup : h.exclusive.Nodup

namespace Server

/-- The locks exclude each other, a connection is in the pool or has one holder, and only a
connection with a holder is in a transaction. -/
structure Sound (s : Server) : Prop where
  exclusion : ∀ t i, (s.tableLocks t).writer = some i → (s.tableLocks t).readers = ∅
  nodup : s.availableConnections.Nodup
  pooled : ∀ c ∈ s.availableConnections, s.holder c = none ∧ c < s.backend.opened
  held : ∀ c i, s.holder c = some i → c < s.backend.opened
  closed : ∀ c, s.holder c = none → (s.backend.session c).Closed
  backend : s.backend.Sound

/-- What no other thread's action takes from `j`. -/
structure Keeps (j : ℕ) (s s' : Server) : Prop where
  writer : ∀ t, (s'.tableLocks t).writer = some j ↔ (s.tableLocks t).writer = some j
  reader : ∀ t, j ∈ (s'.tableLocks t).readers ↔ j ∈ (s.tableLocks t).readers
  holder : ∀ c, s'.holder c = some j ↔ s.holder c = some j
  session : ∀ c, s.holder c = some j → s'.backend.session c = s.backend.session c
  frame : ∀ c t p, s.holder c = some j → s.backend.session c = .inTransaction t p →
    p.Frame s.backend.db s'.backend.db

variable {s s' s'' : Server} {i j : ℕ} {h : Held} {t : String} {c : Conn}

theorem Keeps.refl (j : ℕ) (s : Server) : Keeps j s s :=
  ⟨fun _ => .rfl, fun _ => .rfl, fun _ => .rfl, fun _ _ => rfl,
    fun _ _ _ _ _ => .of_sameRows (.refl _)⟩

theorem Keeps.trans (hk : Keeps j s s') (hk' : Keeps j s' s'') : Keeps j s s'' where
  writer t := (hk'.writer t).trans (hk.writer t)
  reader t := (hk'.reader t).trans (hk.reader t)
  holder c := (hk'.holder c).trans (hk.holder c)
  session c hc := (hk'.session c ((hk.holder c).mpr hc)).trans (hk.session c hc)
  frame c t p hc hp := (hk.frame c t p hc hp).trans
    (hk'.frame c t p ((hk.holder c).mpr hc) ((hk.session c hc).trans hp))

theorem Keeps.holds (hk : Keeps i s s') (hh : Holds i h s) : Holds i h s' :=
  ⟨fun t => (hk.writer t).trans (hh.writer t), fun t => (hk.reader t).trans (hh.reader t),
    fun c => (hk.holder c).trans (hh.holder c), hh.nodup⟩

@[simp] theorem setLock_self (s : Server) (t : String) (m : SharedMutex) :
    (s.setLock t m).tableLocks t = m := by
  simp [setLock]

theorem setLock_of_ne (s : Server) {t u : String} (m : SharedMutex) (hu : u ≠ t) :
    (s.setLock t m).tableLocks u = s.tableLocks u := by
  simp [setLock, hu]

theorem lock_eq_some {m m' : SharedMutex} (hm : m.lock i = some m') :
    m.writer = none ∧ m.readers = ∅ ∧ m' = { m with writer := some i } := by
  unfold SharedMutex.lock at hm
  split at hm
  · rename_i h
    cases hm
    exact ⟨h.1, h.2, rfl⟩
  · cases hm

theorem lockShared_eq_some {m m' : SharedMutex} (hm : m.lockShared i = some m') :
    m.writer = none ∧ m' = { m with readers := insert i m.readers } := by
  unfold SharedMutex.lockShared at hm
  split at hm
  · rename_i h
    cases hm
    exact ⟨h, rfl⟩
  · cases hm

/-- Another lock for one name keeps what is not about it. -/
theorem Keeps.setLock {m : SharedMutex} (hw : m.writer = some j ↔ (s.tableLocks t).writer = some j)
    (hr : j ∈ m.readers ↔ j ∈ (s.tableLocks t).readers) : Keeps j s (s.setLock t m) where
  writer u := by
    by_cases hu : u = t
    · subst hu
      simpa using hw
    · rw [setLock_of_ne s m hu]
  reader u := by
    by_cases hu : u = t
    · subst hu
      simpa using hr
    · rw [setLock_of_ne s m hu]
  holder _ := .rfl
  session _ _ := rfl
  frame _ _ _ _ _ := .of_sameRows (.refl _)

theorem Sound.setLock {m : SharedMutex} (hs : s.Sound)
    (hm : ∀ i, m.writer = some i → m.readers = ∅) : (s.setLock t m).Sound where
  exclusion u i hu := by
    by_cases hut : u = t
    · subst hut
      simp only [setLock_self] at hu ⊢
      exact hm i hu
    · rw [setLock_of_ne s m hut] at hu ⊢
      exact hs.exclusion u i hu
  nodup := hs.nodup
  pooled := hs.pooled
  held := hs.held
  closed := hs.closed
  backend := hs.backend

section locks
variable {m m' : SharedMutex}

theorem lock_keeps (hm : (s.tableLocks t).lock i = some m') (hj : j ≠ i) :
    Keeps j s (s.setLock t m') := by
  obtain ⟨hw, -, rfl⟩ := lock_eq_some hm
  exact .setLock (by simp [hw, Ne.symm hj]) .rfl

theorem lock_sound (hs : s.Sound) (hm : (s.tableLocks t).lock i = some m') :
    (s.setLock t m').Sound := by
  obtain ⟨-, hr, rfl⟩ := lock_eq_some hm
  exact hs.setLock fun _ _ => hr

theorem lock_holds (hm : (s.tableLocks t).lock i = some m') (hh : Holds i h s) :
    Holds i { h with exclusive := t :: h.exclusive } (s.setLock t m') := by
  obtain ⟨hw, -, rfl⟩ := lock_eq_some hm
  have ht : t ∉ h.exclusive := fun ht => by simp [(hh.writer t).mpr ht] at hw
  refine ⟨fun u => ?_, fun u => ?_, hh.holder, List.nodup_cons.mpr ⟨ht, hh.nodup⟩⟩
  · by_cases hu : u = t
    · subst hu
      simp
    · rw [setLock_of_ne s _ hu, hh.writer u]
      simp [hu]
  · by_cases hu : u = t
    · subst hu
      simpa using hh.reader u
    · rw [setLock_of_ne s _ hu]
      exact hh.reader u

theorem lockShared_keeps (hm : (s.tableLocks t).lockShared i = some m') (hj : j ≠ i) :
    Keeps j s (s.setLock t m') := by
  obtain ⟨-, rfl⟩ := lockShared_eq_some hm
  exact .setLock .rfl (by simp [hj])

theorem lockShared_sound (hs : s.Sound) (hm : (s.tableLocks t).lockShared i = some m') :
    (s.setLock t m').Sound := by
  obtain ⟨hw, rfl⟩ := lockShared_eq_some hm
  exact hs.setLock fun _ h => by simp [hw] at h

theorem lockShared_holds (hm : (s.tableLocks t).lockShared i = some m') (hh : Holds i h s) :
    Holds i { h with shared := t :: h.shared } (s.setLock t m') := by
  obtain ⟨-, rfl⟩ := lockShared_eq_some hm
  refine ⟨fun u => ?_, fun u => ?_, hh.holder, hh.nodup⟩
  · by_cases hu : u = t
    · subst hu
      simpa using hh.writer u
    · rw [setLock_of_ne s _ hu]
      exact hh.writer u
  · by_cases hu : u = t
    · subst hu
      simp
    · rw [setLock_of_ne s _ hu, hh.reader u]
      simp [hu]

theorem unlock_keeps (hw : (s.tableLocks t).writer = some i) (hj : j ≠ i) :
    Keeps j s (s.setLock t (s.tableLocks t).unlock) :=
  .setLock (by simp [SharedMutex.unlock, hw, Ne.symm hj]) .rfl

theorem unlock_sound (hs : s.Sound) : (s.setLock t (s.tableLocks t).unlock).Sound :=
  hs.setLock fun _ h => by simp [SharedMutex.unlock] at h

theorem unlock_holds {xs : List String} (hx : h.exclusive = t :: xs) (hh : Holds i h s) :
    Holds i { h with exclusive := xs } (s.setLock t (s.tableLocks t).unlock) := by
  have hnd := hx ▸ hh.nodup
  refine ⟨fun u => ?_, fun u => ?_, hh.holder, (List.nodup_cons.mp hnd).2⟩
  · by_cases hu : u = t
    · subst hu
      simpa [SharedMutex.unlock] using (List.nodup_cons.mp hnd).1
    · rw [setLock_of_ne s _ hu, hh.writer u, hx]
      simp [hu]
  · by_cases hu : u = t
    · subst hu
      simpa [SharedMutex.unlock] using hh.reader u
    · rw [setLock_of_ne s _ hu]
      exact hh.reader u

theorem unlockShared_keeps (hj : j ≠ i) :
    Keeps j s (s.setLock t ((s.tableLocks t).unlockShared i)) :=
  .setLock .rfl (by simp [SharedMutex.unlockShared, hj])

theorem unlockShared_sound (hs : s.Sound) :
    (s.setLock t ((s.tableLocks t).unlockShared i)).Sound :=
  hs.setLock fun _ h => by
    simp only [SharedMutex.unlockShared] at h ⊢
    simp [hs.exclusion t _ h]

theorem unlockShared_holds (hx : h.shared = [t]) (hh : Holds i h s) :
    Holds i { h with shared := [] } (s.setLock t ((s.tableLocks t).unlockShared i)) := by
  refine ⟨fun u => ?_, fun u => ?_, hh.holder, hh.nodup⟩
  · by_cases hu : u = t
    · subst hu
      simpa [SharedMutex.unlockShared] using hh.writer u
    · rw [setLock_of_ne s _ hu]
      exact hh.writer u
  · by_cases hu : u = t
    · subst hu
      simp [SharedMutex.unlockShared]
    · rw [setLock_of_ne s _ hu, hh.reader u, hx]
      simp [hu]

end locks
/-! The pool. -/

section pool
variable {r : Option Conn} {o : Outcome}

/-- A connection leaves the pool: it is handed out, perhaps replaced, or given up. -/
inductive Acquired (s : Server) (i : ℕ) (o : Outcome) : Option Conn → Server → Prop
  | valid {c : Conn} {rest : List Conn} : s.availableConnections = c :: rest → o = .ok →
      s.backend.session c ≠ .broken → Acquired s i o (some c)
        { s with
          availableConnections := rest
          holder := Function.update s.holder c (some i) }
  | reset {c : Conn} {rest : List Conn} : s.availableConnections = c :: rest → o = .reset c →
      s.backend.session c = .broken → Acquired s i o (some c)
        { s with
          availableConnections := rest
          holder := Function.update s.holder c (some i)
          backend := s.backend.setSession c .idle }
  | replaced {c : Conn} {rest : List Conn} : s.availableConnections = c :: rest →
      o = .replaced c → s.backend.session c = .broken → Acquired s i o (some s.backend.opened)
        { s with
          availableConnections := rest
          holder := Function.update s.holder s.backend.opened (some i)
          backend := { s.backend with opened := s.backend.opened + 1 }.setSession
            s.backend.opened .idle }
  | refused {c : Conn} {rest : List Conn} : s.availableConnections = c :: rest →
      o = .refused c → s.backend.session c = .broken →
      Acquired s i o none { s with availableConnections := rest }

theorem acquire_cases (h : s.acquire i o = some (r, s')) : Acquired s i o r s' := by
  unfold acquire at h
  split at h
  · cases h
  · rename_i c rest hp
    dsimp only at h
    split at h
    · rename_i c' hs
      split at h
      · rename_i hc
        cases h
        exact .reset hp (by rw [hc]) hs
      · cases h
    · rename_i c' hs
      split at h
      · rename_i hc
        cases h
        exact .replaced hp (by rw [hc]) hs
      · cases h
    · rename_i c' hs
      split at h
      · rename_i hc
        cases h
        exact .refused hp (by rw [hc]) hs
      · cases h
    · cases h
    · rename_i hs
      cases h
      exact .valid hp rfl (by simpa using hs)
    · cases h

/-- What an action of the thread `i` answers, and what it makes of the server. -/
inductive Performed (pg : Postgres) (o : Outcome) (i : ℕ) (s : Server) :
    (a : Act) → a.Result → Server → Prop
  | lockShared {t : String} {m : SharedMutex} : (s.tableLocks t).lockShared i = some m →
      Performed pg o i s (.lockShared t) () (s.setLock t m)
  | unlockShared (t : String) : Performed pg o i s (.unlockShared t) ()
      (s.setLock t ((s.tableLocks t).unlockShared i))
  | lockExclusive {t : String} {m : SharedMutex} : (s.tableLocks t).lock i = some m →
      Performed pg o i s (.lockExclusive t) () (s.setLock t m)
  | unlockExclusive (t : String) : Performed pg o i s (.unlockExclusive t) ()
      (s.setLock t (s.tableLocks t).unlock)
  | acquire {r : Option Conn} {s' : Server} : Acquired s i o r s' →
      Performed pg o i s .acquire r s'
  | release (c : Conn) : Performed pg o i s (.release c) () (s.release c)
  | exec {c : Conn} {k : Command} {ans : Answer} {r : Bool} {b : Backend} : o = .answer ans →
      s.backend.exec c k ans = (r, b) →
      Performed pg o i s (.exec c k) r { s with backend := b }
  | execParams {c : Conn} {sql : Sql} {ans : Answer} {r : PGresult sql.Row} {b : Backend} :
      o = .answer ans → s.backend.execParams c pg sql ans = some (r, b) →
      Performed pg o i s (.execParams c sql) r { s with backend := b }
  | cacheGet (key : String) : Performed pg o i s (.cacheGet key) (s.cache.get key).1
      { s with cache := (s.cache.get key).2 }
  | cachePut {key : String} {rows : List PartitionRow} {cache : Cache String (List PartitionRow)} :
      s.cache.put key rows = some cache →
      Performed pg o i s (.cachePut key rows) () { s with cache := cache }
  | cacheInvalidate (keyPrefix : String) : Performed pg o i s (.cacheInvalidate keyPrefix)
      (s.cache.invalidateIf fun key => keyPrefix.toList.isPrefixOf key.toList).2
      { s with
        cache := (s.cache.invalidateIf fun key => keyPrefix.toList.isPrefixOf key.toList).1 }
  | fetchAddTxnId : Performed pg o i s .fetchAddTxnId s.mvcc.fetchAddTxnId.1
      { s with mvcc := s.mvcc.fetchAddTxnId.2 }
  | loadSnapshot : Performed pg o i s .loadSnapshot s.mvcc.getLatestCommittedSnapshot s
  | registerTransaction (txnId readSnapshot : ℕ) :
      Performed pg o i s (.registerTransaction txnId readSnapshot) ()
        { s with mvcc := s.mvcc.registerTransaction s.steadyClock txnId readSnapshot }
  | commitTransaction {txnId failures : ℕ} : o = .spurious failures →
      Performed pg o i s (.commitTransaction txnId)
        (s.mvcc.commitTransaction failures s.steadyClock txnId).1
        { s with mvcc := (s.mvcc.commitTransaction failures s.steadyClock txnId).2 }
  | abortTransaction (txnId : ℕ) : Performed pg o i s (.abortTransaction txnId) ()
      { s with mvcc := s.mvcc.abortTransaction txnId }

theorem perform_cases {pg : Postgres} {a : Act} {r : a.Result}
    (h : perform pg o i a s = some (r, s')) : Performed pg o i s a r s' := by
  cases a with
  | lockShared t =>
    obtain ⟨m, hm, h⟩ := Option.map_eq_some_iff.mp h
    cases h
    exact .lockShared hm
  | lockExclusive t =>
    obtain ⟨m, hm, h⟩ := Option.map_eq_some_iff.mp h
    cases h
    exact .lockExclusive hm
  | acquire => exact .acquire (acquire_cases h)
  | exec c k =>
    simp only [perform] at h
    split at h
    · cases h
      exact .exec rfl rfl
    · cases h
  | execParams c sql =>
    simp only [perform] at h
    split at h
    · obtain ⟨⟨r', b⟩, hx, h⟩ := Option.map_eq_some_iff.mp h
      cases h
      exact .execParams rfl hx
    · cases h
  | cachePut key rows =>
    obtain ⟨cache, hp, h⟩ := Option.map_eq_some_iff.mp h
    cases h
    exact .cachePut hp
  | commitTransaction txnId =>
    simp only [perform] at h
    split at h
    · cases h
      exact .commitTransaction rfl
    · cases h
  | _ =>
    cases h
    constructor

theorem Sound.held_opened (hs : s.Sound) : s.holder s.backend.opened = none := by
  by_contra hne
  obtain ⟨j, hj⟩ := Option.ne_none_iff_exists'.mp hne
  exact absurd (hs.held _ _ hj) (Nat.lt_irrefl _)

/-- A connection that has no holder goes to `i`. -/
theorem Keeps.hand {b' : Backend} {pool : List Conn} (hc : s.holder c = none) (hj : j ≠ i)
    (hb : ∀ d, d ≠ c → b'.session d = s.backend.session d)
    (hrows : s.backend.db.SameRows b'.db) : Keeps j s
      { s with
        availableConnections := pool, holder := Function.update s.holder c (some i),
        backend := b' } where
  writer _ := .rfl
  reader _ := .rfl
  holder d := by
    by_cases hd : d = c
    · subst hd
      simp [hc, Ne.symm hj]
    · simp [hd]
  session d hd := hb d (by rintro rfl; simp [hc] at hd)
  frame _ _ _ _ _ := .of_sameRows hrows

theorem Sound.hand {b' : Backend} {pool : List Conn} (hs : s.Sound) (hb' : b'.Sound)
    (hpool : pool.Nodup) (hin : ∀ d ∈ pool, d ∈ s.availableConnections ∧ d ≠ c)
    (hc : c < b'.opened) (ho : s.backend.opened ≤ b'.opened)
    (hb : ∀ d, d ≠ c → b'.session d = s.backend.session d) : Sound
      { s with
        availableConnections := pool, holder := Function.update s.holder c (some i),
        backend := b' } where
  exclusion := hs.exclusion
  nodup := hpool
  pooled d hd := by
    obtain ⟨hd, hne⟩ := hin d hd
    obtain ⟨hh, hlt⟩ := hs.pooled d hd
    exact ⟨by simpa [hne] using hh, hlt.trans_le ho⟩
  held d j hd := by
    by_cases hdc : d = c
    · exact hdc ▸ hc
    · exact (hs.held d j (by simpa [hdc] using hd)).trans_le ho
  closed d hd := by
    by_cases hdc : d = c
    · subst hdc
      simp at hd
    · rw [hb d hdc]
      exact hs.closed d (by simpa [hdc] using hd)
  backend := hb'

theorem hand_holds {b' : Backend} {pool : List Conn} (hh : Holds i h s) (hn : h.conn = none) :
    Holds i { h with conn := some c }
      { s with
        availableConnections := pool, holder := Function.update s.holder c (some i),
        backend := b' } := by
  refine ⟨hh.writer, hh.reader, fun d => ?_, hh.nodup⟩
  by_cases hd : d = c
  · subst hd
    simp
  · have := hh.holder d
    simp only [hn, reduceCtorEq, iff_false] at this
    simpa [hd, Ne.symm hd] using this

theorem backend_sound_opened {b : Backend} (hb : b.Sound) :
    ({ b with opened := b.opened + 1 }.setSession b.opened .idle).Sound := by
  have hb' : Backend.Sound { b with opened := b.opened + 1 } :=
    ⟨fun c hc => (hb.opened c hc).trans (Nat.lt_succ_self _), hb.drawn, hb.names, hb.apart,
      hb.unique⟩
  exact hb'.quiet (Nat.lt_succ_self _) (Backend.quiet_setSession _ _ _) (by simp)

/-- `acquire` keeps the invariant, takes nothing from others, and leaves all rows. -/
theorem acquired_spec (hs : s.Sound) (ha : Acquired s i o r s') :
    s'.Sound ∧ (∀ j, j ≠ i → Keeps j s s') ∧
      (s'.backend.db = s.backend.db ∧ s'.mvcc = s.mvcc ∧ s'.cache = s.cache) ∧
      ∀ h, Holds i h s → h.conn = none → Holds i { h with conn := r } s' ∧
        ∀ c, r = some c → s'.backend.session c = .idle := by
  have hpool : ∀ {c rest}, s.availableConnections = c :: rest →
      (rest.Nodup ∧ ∀ d ∈ rest, d ∈ s.availableConnections ∧ d ≠ c) ∧
        s.holder c = none ∧ c < s.backend.opened := by
    intro c rest hp
    have hnd := hp ▸ hs.nodup
    obtain ⟨hc, hr⟩ := List.nodup_cons.mp hnd
    refine ⟨⟨hr, fun d hd => ⟨by simp [hp, hd], ?_⟩⟩, hs.pooled c (by simp [hp])⟩
    rintro rfl
    exact hc hd
  cases ha with
  | @valid c rest hp ho hb =>
    obtain ⟨⟨hnd, hin⟩, hc, hlt⟩ := hpool hp
    refine ⟨hs.hand hs.backend hnd hin hlt (Nat.le_refl _) fun _ _ => rfl,
      fun j hj => .hand hc hj (fun _ _ => rfl) (.refl _), ⟨rfl, rfl, rfl⟩,
      fun h hh hn => ⟨hand_holds hh hn, ?_⟩⟩
    rintro d hd
    cases hd
    have := hs.closed c hc
    cases hσ : s.backend.session c <;> simp_all [Session.Closed]
  | @reset c rest hp ho hb =>
    obtain ⟨⟨hnd, hin⟩, hc, hlt⟩ := hpool hp
    have hne : ∀ d, d ≠ c → (s.backend.setSession c .idle).session d = s.backend.session d :=
      fun d hd => Backend.setSession_of_ne _ _ hd
    refine ⟨hs.hand (hs.backend.quiet hlt (Backend.quiet_setSession _ _ _) (by simp)) hnd hin hlt
      (Nat.le_refl _) hne, fun j hj => .hand hc hj hne (.refl _), ⟨rfl, rfl, rfl⟩,
      fun h hh hn => ⟨hand_holds hh hn, ?_⟩⟩
    rintro d hd
    cases hd
    simp
  | @replaced c rest hp ho hb =>
    obtain ⟨⟨hnd, hin⟩, -, -⟩ := hpool hp
    have hne : ∀ d, d ≠ s.backend.opened →
        ({ s.backend with opened := s.backend.opened + 1 }.setSession s.backend.opened
          .idle).session d = s.backend.session d :=
      fun d hd => Backend.setSession_of_ne _ _ hd
    have hin' : ∀ d ∈ rest, d ∈ s.availableConnections ∧ d ≠ s.backend.opened := fun d hd =>
      ⟨(hin d hd).1, ne_of_lt (hs.pooled d (hin d hd).1).2⟩
    refine ⟨hs.hand (backend_sound_opened hs.backend) hnd hin' (Nat.lt_succ_self _)
      (Nat.le_succ _) hne, fun j hj => .hand hs.held_opened hj hne (.refl _), ⟨rfl, rfl, rfl⟩,
      fun h hh hn => ⟨hand_holds hh hn, ?_⟩⟩
    rintro d hd
    cases hd
    simp
  | @refused c rest hp ho hb =>
    obtain ⟨⟨hnd, hin⟩, -, -⟩ := hpool hp
    refine ⟨⟨hs.exclusion, hnd, fun d hd => hs.pooled d (hin d hd).1, hs.held, hs.closed,
      hs.backend⟩, fun j _ => ⟨fun _ => .rfl, fun _ => .rfl, fun _ => .rfl, fun _ _ => rfl,
      fun _ _ _ _ _ => .of_sameRows (.refl _)⟩, ⟨rfl, rfl, rfl⟩, fun h hh hn => ⟨?_, by simp⟩⟩
    exact ⟨hh.writer, hh.reader, fun c => by simpa [hn] using hh.holder c, hh.nodup⟩

theorem release_spec (hs : s.Sound) (hc : s.holder c = some i)
    (hcl : (s.backend.session c).Closed) : (s.release c).Sound ∧
      (∀ j, j ≠ i → Keeps j s (s.release c)) ∧
      ∀ h, Holds i h s → Holds i { h with conn := none } (s.release c) := by
  have hnot : c ∉ s.availableConnections := fun hm => by simp [(hs.pooled c hm).1] at hc
  refine ⟨⟨hs.exclusion, ?_, ?_, ?_, ?_, hs.backend⟩, fun j hj => ?_, fun h hh => ?_⟩
  · simpa [release, List.nodup_append] using ⟨hs.nodup, fun d hd hdc => hnot (hdc ▸ hd)⟩
  · intro d hd
    simp only [release, List.mem_append, List.mem_singleton] at hd ⊢
    rcases hd with hd | rfl
    · have hne : d ≠ c := by rintro rfl; exact hnot hd
      simpa [hne] using hs.pooled d hd
    · simpa using hs.held d i hc
  · intro d j hd
    by_cases hdc : d = c
    · subst hdc
      simp [release] at hd
    · exact hs.held d j (by simpa [release, hdc] using hd)
  · intro d hd
    by_cases hdc : d = c
    · exact hdc ▸ hcl
    · exact hs.closed d (by simpa [release, hdc] using hd)
  · refine ⟨fun _ => .rfl, fun _ => .rfl, fun d => ?_, fun _ _ => rfl,
      fun _ _ _ _ _ => .of_sameRows (.refl _)⟩
    by_cases hdc : d = c
    · subst hdc
      simp [release, hc, Ne.symm hj]
    · simp [release, hdc]
  · refine ⟨hh.writer, hh.reader, fun d => ?_, hh.nodup⟩
    by_cases hdc : d = c
    · subst hdc
      simp [release]
    · have hcc := (hh.holder c).mp hc
      have hd := hh.holder d
      simp only [hcc, Option.some.injEq] at hd
      simpa [release, hdc] using fun h' => hdc (hd.mp h').symm

end pool

/-! Statements. -/

section statements
variable {b' : Backend}

theorem statement_sound (hs : s.Sound) (hc : s.holder c = some i) (hb : b'.Sound)
    (ho : b'.opened = s.backend.opened)
    (hne : ∀ d, d ≠ c → b'.session d = s.backend.session d) : Sound { s with backend := b' } where
  exclusion := hs.exclusion
  nodup := hs.nodup
  pooled d hd := ⟨(hs.pooled d hd).1, ho ▸ (hs.pooled d hd).2⟩
  held d j hd := ho ▸ hs.held d j hd
  closed d hd := by
    have hdc : d ≠ c := by
      rintro rfl
      simp only at hd
      simp [hd] at hc
    exact hne d hdc ▸ hs.closed d hd
  backend := hb

theorem statement_keeps (hc : s.holder c = some i) (hj : j ≠ i)
    (hne : ∀ d, d ≠ c → b'.session d = s.backend.session d)
    (hf : ∀ d t p, d ≠ c → s.backend.session d = .inTransaction t p →
      p.Frame s.backend.db b'.db) : Keeps j s { s with backend := b' } where
  writer _ := .rfl
  reader _ := .rfl
  holder _ := .rfl
  session d hd := hne d (by rintro rfl; simp_all)
  frame d t p hd hp := hf d t p (by rintro rfl; simp_all) hp

end statements
end Server
end IceLog
