import Mathlib.Data.List.Count
import IceLog.Cache.LruCache

/-! Sequences of calls on a cache: what its representation keeps, which values can be found in
it, and how many entries have come and gone. -/
namespace IceLog.LRUCache

variable {K V : Type} [DecidableEq K] {c c' d : LRUCache K V} {k : K} {v : V} {p : K → Bool}
  {last : K → Option V} {capacity n : ℕ}

inductive Call (K V : Type) where
  | get (key : K)
  | put (key : K) (value : V)
  | invalidate (key : K)
  | invalidateIf (predicate : K → Bool)
  | clear

/-- The keys that a call asks to remove. -/
def Call.removes : Call K V → K → Bool
  | invalidate key => fun k => k == key
  | invalidateIf predicate => predicate
  | clear => fun _ => true
  | _ => fun _ => false

/-- What the cache is after a call, if the call is defined. -/
def call (c : LRUCache K V) : Call K V → Option (LRUCache K V)
  | .get key => (c.get key).map Prod.snd
  | .put key value => c.put key value
  | .invalidate key => c.invalidate key
  | .invalidateIf predicate => (c.invalidateIf predicate).map Prod.fst
  | .clear => some c.clear

def calls (c : LRUCache K V) : List (Call K V) → Option (LRUCache K V)
  | [] => some c
  | q :: qs => (c.call q).bind fun c' => c'.calls qs

/-- Whether a put inserts its key. -/
def Call.inserted (c : LRUCache K V) : Call K V → ℕ
  | put key _ => if c.map.lookup key = none then 1 else 0
  | _ => 0

def Call.removed (c : LRUCache K V) (q : Call K V) : ℕ := c.map.countP fun e => q.removes e.1

/-- The sum of a count over a sequence of calls. -/
def total (count : LRUCache K V → Call K V → ℕ) (c : LRUCache K V) : List (Call K V) → ℕ
  | [] => 0
  | q :: qs => count c q + (c.call q).elim 0 fun c' => total count c' qs

/-- The value of the last put of each key that has not been invalidated or cleared since. -/
def Call.remember (last : K → Option V) (q : Call K V) : K → Option V :=
  match q with
  | put key value => Function.update last key (some value)
  | q => fun k => if q.removes k then none else last k

def remembered (qs : List (Call K V)) : K → Option V := qs.foldl Call.remember fun _ => none

/-- What a reader of the two structures sees. -/
structure Consistent (capacity : ℕ) (c : LRUCache K V) : Prop where
  keys : ∀ k, k ∈ c.map.map Prod.fst ↔ k ∈ c.lruList.map Node.key
  once : (c.lruList.map Node.key).Nodup
  designates : ∀ k a, (k, a) ∈ c.map → ∃ v, node c.lruList a = some ⟨a, k, v⟩
  fits : c.size ≤ capacity

/-- Every cached value is the one remembered for its key. -/
def Recalls (c : LRUCache K V) (last : K → Option V) : Prop :=
  ∀ k v, (k, v) ∈ c.entries → last k = some v

/-- What one call, or a sequence of them, keeps and counts. -/
structure Leads (c c' : LRUCache K V) (inserted removed : ℕ) : Prop where
  wellFormed : c'.WellFormed
  capacity : c'.capacity = c.capacity
  count : c.size + c.evictionCount + inserted = c'.size + c'.evictionCount + removed

omit [DecidableEq K] in
theorem WellFormed.mem_keys (h : c.WellFormed) (k : K) :
    k ∈ c.map.map Prod.fst ↔ k ∈ c.lruList.map Node.key := by
  simp only [List.mem_map]
  constructor
  · rintro ⟨⟨k, a⟩, hk, rfl⟩
    obtain ⟨v, hv⟩ := (h.designates k a).mp hk
    exact ⟨_, hv, rfl⟩
  · rintro ⟨n, hn, rfl⟩
    exact ⟨(n.key, n.addr), (h.designates _ _).mpr ⟨n.value, hn⟩, rfl⟩

omit [DecidableEq K] in
/-- The list and the map have the same length. -/
theorem WellFormed.size_eq (h : c.WellFormed) : c.size = c.lruList.length := by
  have hp := (List.perm_ext_iff_of_nodup h.mapKeys h.keys).mpr h.mem_keys
  simpa [size] using hp.length_eq

omit [DecidableEq K] in
theorem WellFormed.consistent (h : c.WellFormed) : c.Consistent c.capacity where
  keys := h.mem_keys
  once := h.keys
  designates k a hk := by
    obtain ⟨v, hv, -⟩ := h.node_eq hk
    exact ⟨v, hv⟩
  fits := h.size_eq ▸ h.fits

theorem get_leads (h : c.WellFormed) {o : Option V} (hg : c.get k = some (o, c')) :
    Leads c c' 0 0 := by
  refine ⟨get_wellFormed h hg, ?_, ?_⟩ <;> simp only [get] at hg <;> split at hg
  · cases hg
    rfl
  · obtain ⟨n, -, he⟩ := Option.map_eq_some_iff.mp hg
    cases he
    rfl
  · cases hg
    rfl
  · obtain ⟨n, -, he⟩ := Option.map_eq_some_iff.mp hg
    cases he
    rfl

/-- With room for one entry, a full cache has a last one to give up. -/
theorem evict_leads (h : c.WellFormed) (hc : 1 ≤ c.capacity) :
    ∃ d, c.evict = some d ∧ d.WellFormed ∧ d.capacity = c.capacity ∧
      d.size + d.evictionCount = c.size + c.evictionCount := by
  have hsome : c.evict.isSome := by
    simp only [evict]
    split
    · rename_i hfull
      have hne : c.lruList ≠ [] := by
        rintro he
        simp [he] at hfull
        omega
      simp [List.getLast?_isSome.mpr hne]
    · rfl
  obtain ⟨d, hd⟩ := Option.isSome_iff_exists.mp hsome
  have hwf := (evict_wellFormed h hd).1
  refine ⟨d, hd, hwf, ?_⟩
  rw [hwf.size_eq, h.size_eq]
  simp only [evict] at hd
  split at hd
  · obtain ⟨last, -, rfl⟩ := Option.map_eq_some_iff.mp hd
    refine ⟨rfl, ?_⟩
    simp only [List.length_dropLast]
    omega
  · cases hd
    exact ⟨rfl, rfl⟩

theorem put_leads (h : c.WellFormed) (hc : 1 ≤ c.capacity) (k : K) (v : V) :
    ∃ c', c.put k v = some c' ∧ Leads c c' ((Call.put k v).inserted c) 0 := by
  cases hk : c.map.lookup k with
  | some a =>
    obtain ⟨w, hw, -⟩ := h.node_eq (mem_of_lookup hk)
    refine ⟨{ c with lruList := ⟨a, k, v⟩ :: removeNode c.lruList a }, ?_, ?_, rfl, ?_⟩
    · simp [put, hk, hw]
    · exact put_wellFormed (k := k) (v := v) h (by simp [put, hk, hw])
    · simp [Call.inserted, hk, size]
  | none =>
    obtain ⟨d, hd, -, hcap, hcount⟩ := evict_leads h hc
    refine ⟨{ d with
      lruList := ⟨d.nextAddr, k, v⟩ :: d.lruList, map := (k, d.nextAddr) :: d.map,
      nextAddr := d.nextAddr + 1 }, ?_, ?_, hcap, ?_⟩
    · simp [put, hk, hd]
    · exact put_wellFormed (k := k) (v := v) h (by simp [put, hk, hd])
    · simp only [Call.inserted, hk, size, List.length_cons] at hcount ⊢
      simp
      omega

omit [DecidableEq K] in
theorem invalidateIf_leads (h : c.WellFormed) (p : K → Bool) :
    ∃ c' n, c.invalidateIf p = some (c', n) ∧ n = (c.map.countP fun e => p e.1) ∧
      Leads c c' 0 n := by
  have hsome : (c.invalidateIf p).isSome := by
    rw [invalidateIf, Option.isSome_map]
    refine sweep_isSome h.map_addrs ?_
    rintro ⟨k, a⟩ hk
    obtain ⟨v, hv, -⟩ := h.node_eq hk
    simp [hv]
  obtain ⟨⟨c', n⟩, hi⟩ := Option.isSome_iff_exists.mp hsome
  have hwf := invalidateIf_wellFormed h hi
  obtain ⟨⟨m, l, r⟩, hs, he⟩ := Option.map_eq_some_iff.mp hi
  cases he
  obtain ⟨rfl, -, hn⟩ := sweep_eq hs
  refine ⟨_, _, hi, hn, hwf, rfl, ?_⟩
  have hlen : c.map.length = (c.map.countP fun e => p e.1) + c.map.countP fun e => !p e.1 := by
    rw [List.length_eq_countP_add_countP fun e : K × ℕ => p e.1]
    simp
  simp only [size, ← List.countP_eq_length_filter]
  omega

theorem invalidate_eq (h : c.WellFormed) (k : K) :
    c.invalidate k = (c.invalidateIf fun key => key == k).map Prod.fst := by
  obtain ⟨c', n, hi, -, -⟩ := invalidateIf_leads h fun key => key == k
  rw [hi, Option.map_some]
  obtain ⟨⟨m, l, r⟩, hs, he⟩ := Option.map_eq_some_iff.mp hi
  cases he
  obtain ⟨rfl, rfl, -⟩ := sweep_eq hs
  cases hk : c.map.lookup k with
  | some a =>
    obtain ⟨v, hv, -⟩ := h.node_eq (mem_of_lookup hk)
    have hl : removeNode c.lruList a =
        c.lruList.filter fun x => c.map.all fun e => !(e.1 == k) || x.addr != e.2 := by
      refine List.filter_congr fun x hx => ?_
      rw [Bool.eq_iff_iff]
      simp only [bne_iff_ne, List.all_eq_true, Bool.or_eq_true, Bool.not_eq_true', beq_eq_false_iff_ne]
      constructor
      · rintro hne ⟨k', a'⟩ he
        by_cases hk' : k' = k
        · subst hk'
          have hsame := List.inj_on_of_nodup_map h.mapKeys he (mem_of_lookup hk) rfl
          obtain ⟨-, rfl⟩ := Prod.mk.inj hsame
          exact .inr hne
        · exact .inl hk'
      · intro hall
        exact (hall _ (mem_of_lookup hk)).resolve_left (by simp)
    simp only [invalidate, hk, hv, Option.map_some, hl]
    rfl
  | none =>
    have hkey : ∀ e ∈ c.map, (e.1 == k) = false := by
      rintro ⟨k', a'⟩ he
      refine beq_eq_false_iff_ne.mpr ?_
      rintro rfl
      exact not_mem_of_lookup hk a' he
    have hm : c.map.filter (fun e => !(e.1 == k)) = c.map :=
      List.filter_eq_self.mpr fun e he => by simp [hkey e he]
    have hl : (c.lruList.filter fun x => c.map.all fun e => !(e.1 == k) || x.addr != e.2) =
        c.lruList :=
      List.filter_eq_self.mpr fun x _ => List.all_eq_true.mpr fun e he => by simp [hkey e he]
    simp [invalidate, hk, hm, hl]

omit [DecidableEq K] in
/-- A call that removes keys keeps what is remembered for the others. -/
theorem Recalls.invalidateIf (hr : c.Recalls last) (h : c.WellFormed)
    (hi : c.invalidateIf p = some (c', n)) :
    c'.Recalls fun k => if p k then none else last k := by
  intro k v hkv
  obtain ⟨x, hx, he⟩ := List.mem_map.mp hkv
  cases he
  obtain ⟨hx, hp⟩ := (mem_invalidateIf h hi x).mp hx
  simp only [hp, Bool.false_eq_true, if_false]
  exact hr _ _ (List.mem_map_of_mem hx)

/-- One call of any kind. -/
theorem call_leads (h : c.WellFormed) (hc : 1 ≤ c.capacity) (hr : c.Recalls last) (q : Call K V) :
    ∃ c', c.call q = some c' ∧ Leads c c' (q.inserted c) (q.removed c) ∧
      c'.Recalls (q.remember last) := by
  let C : Cache K V := ⟨c, h⟩
  have hzero : ∀ q : Call K V, (q.removes = fun _ => false) → q.removed c = 0 := by
    intro q hq
    simp [Call.removed, hq]
  cases q with
  | get k =>
    have hg : c.get k = some ((C.get k).1, (C.get k).2.toLRUCache) := Cache.raw_get C k
    refine ⟨(C.get k).2.toLRUCache, by simp [call, hg], ?_, ?_⟩
    · rw [hzero (.get k) rfl]
      exact get_leads h hg
    · intro k' v hkv
      exact hr k' v ((Cache.mem_get C k _).mp hkv)
  | put k v =>
    obtain ⟨c', hp, hl⟩ := put_leads h hc k v
    refine ⟨c', hp, ?_, ?_⟩
    · rw [hzero (.put k v) rfl]
      exact hl
    · intro k' v' hkv
      have hC : C.put k v = some ⟨c', hl.wellFormed⟩ := Cache.put_eq hp
      rcases Cache.mem_put hC hkv with he | ⟨he, hne⟩
      · obtain ⟨rfl, rfl⟩ := Prod.mk.inj he
        exact Function.update_self ..
      · exact (Function.update_of_ne hne _ _).trans (hr k' v' he)
  | invalidate k =>
    obtain ⟨c', n, hi, rfl, hl⟩ := invalidateIf_leads h fun key => key == k
    exact ⟨c', by rw [call, invalidate_eq h, hi, Option.map_some], hl, hr.invalidateIf h hi⟩
  | invalidateIf p =>
    obtain ⟨c', n, hi, rfl, hl⟩ := invalidateIf_leads h p
    exact ⟨c', by rw [call, hi, Option.map_some], hl, hr.invalidateIf h hi⟩
  | clear =>
    refine ⟨c.clear, rfl, ⟨?_, rfl, ?_⟩, ?_⟩
    · exact ⟨List.nodup_nil, List.nodup_nil, List.nodup_nil, by simp [clear], by simp [clear],
        Nat.zero_le _⟩
    · simp [Call.inserted, Call.removed, Call.removes, clear, size]
      omega
    · intro k v hkv
      simp [clear, entries] at hkv

theorem calls_lead (h : c.WellFormed) (hc : 1 ≤ c.capacity) (hr : c.Recalls last)
    (qs : List (Call K V)) :
    ∃ c', c.calls qs = some c' ∧ Leads c c' (total Call.inserted c qs) (total Call.removed c qs) ∧
      c'.Recalls (qs.foldl Call.remember last) := by
  induction qs generalizing c last with
  | nil => exact ⟨c, rfl, ⟨h, rfl, rfl⟩, hr⟩
  | cons q qs ih =>
    obtain ⟨d, hd, hl, hrd⟩ := call_leads h hc hr q
    obtain ⟨c', hc', hl', hr'⟩ := ih hl.wellFormed (hl.capacity ▸ hc) hrd
    refine ⟨c', by simp [calls, hd, hc'], ⟨hl'.wellFormed, hl'.capacity.trans hl.capacity, ?_⟩, hr'⟩
    have hn := hl.count
    have hn' := hl'.count
    simp only [total, hd, Option.elim_some]
    omega

/-- Any calls on a new cache are defined and leave list and map in step, within the capacity;
what is found is what was put last, and every entry that was inserted is still there, was evicted
or was removed. -/
theorem representation (hc : 1 ≤ capacity) (qs : List (Call K V)) :
    ∃ c, (new capacity : LRUCache K V).calls qs = some c ∧ c.Consistent capacity ∧
      (∀ k v c', c.get k = some (some v, c') → remembered qs k = some v) ∧
      total Call.inserted (new capacity) qs =
        c.size + c.evictionCount + total Call.removed (new capacity) qs := by
  have hr : (new capacity : LRUCache K V).Recalls fun _ => none := by
    intro k v hkv
    simp [new, entries] at hkv
  obtain ⟨c, hq, hl, hrc⟩ := calls_lead (new_wellFormed capacity) hc hr qs
  refine ⟨c, hq, ?_, ?_, ?_⟩
  · have := hl.wellFormed.consistent
    rwa [hl.capacity] at this
  · intro k v c' hg
    have hC := Cache.raw_get ⟨c, hl.wellFormed⟩ k
    refine hrc k v (Cache.get_hit (c := ⟨c, hl.wellFormed⟩) ?_)
    exact ((Prod.mk.inj (Option.some.inj (hC.symm.trans hg))).1)
  · have := hl.count
    simp only [new, size, List.length_nil] at this ⊢
    omega

theorem representation_small :
    ∃ c, (new 1 : LRUCache ℕ ℕ).calls [.put 1 5, .put 2 6, .get 2, .invalidate 2] = some c ∧
      c.Consistent 1 ∧
      (∀ k v c', c.get k = some (some v, c') →
        remembered [.put 1 5, .put 2 6, .get 2, .invalidate 2] k = some v) ∧
      total Call.inserted (new 1) [.put 1 5, .put 2 6, .get 2, .invalidate 2] =
        c.size + c.evictionCount +
          total Call.removed (new 1 : LRUCache ℕ ℕ) [.put 1 5, .put 2 6, .get 2, .invalidate 2] :=
  representation (by decide) _

/-! Caches with and without room. -/

section room
variable {q : Call K V} {qs : List (Call K V)}

/-- Every call is defined, and after it the cache is no larger than its capacity. -/
def Safe (c : LRUCache K V) (qs : List (Call K V)) : Prop :=
  ∀ n, ∃ d, c.calls (qs.take n) = some d ∧ d.size ≤ c.capacity

def Call.puts : Call K V → Bool
  | put .. => true
  | _ => false

/-- An empty cache without room. -/
structure Roomless (c : LRUCache K V) : Prop where
  capacity : c.capacity = 0
  list : c.lruList = []
  map : c.map = []

theorem safe_of_capacity (hc : 1 ≤ capacity) (qs : List (Call K V)) :
    Safe (new capacity : LRUCache K V) qs := by
  intro n
  obtain ⟨d, hd, hcons, -⟩ := representation (V := V) hc (qs.take n)
  exact ⟨d, hd, hcons.fits⟩

/-- There is no last entry to give up. -/
theorem Roomless.put (h : c.Roomless) (k : K) (v : V) : c.put k v = none := by
  simp [LRUCache.put, evict, h.map, h.list, h.capacity]

theorem Roomless.call (h : c.Roomless) (hq : q.puts = false) :
    ∃ c', c.call q = some c' ∧ c'.Roomless ∧ c'.size ≤ c.capacity := by
  have hsize : c.size ≤ c.capacity := by simp [size, h.map]
  cases q with
  | put k v => cases hq
  | get k =>
    refine ⟨{ c with missCount := c.missCount + 1 }, ?_, ⟨h.capacity, h.list, h.map⟩, hsize⟩
    simp [LRUCache.call, get, h.map]
  | invalidate k => exact ⟨c, by simp [LRUCache.call, invalidate, h.map], h, hsize⟩
  | invalidateIf p =>
    refine ⟨{ c with lruList := [], map := [] }, ?_, ⟨h.capacity, rfl, rfl⟩, Nat.zero_le _⟩
    simp [LRUCache.call, invalidateIf, sweep, h.list, h.map]
  | clear => exact ⟨c.clear, rfl, ⟨h.capacity, rfl, rfl⟩, Nat.zero_le _⟩

theorem Roomless.safe_iff (h : c.Roomless) : Safe c qs ↔ ∀ q ∈ qs, q.puts = false := by
  induction qs generalizing c with
  | nil => simp [Safe, calls, size, h.map]
  | cons q qs ih =>
    rw [List.forall_mem_cons]
    cases hq : q.puts with
    | true =>
      simp only [Bool.true_eq_false, false_and, iff_false]
      intro hs
      obtain ⟨d, hd, -⟩ := hs 1
      cases q with
      | put k v => simp [calls, LRUCache.call, h.put] at hd
      | _ => cases hq
    | false =>
      obtain ⟨c', hc', h', hsize⟩ := h.call hq
      have hcap : c'.capacity = c.capacity := h'.capacity.trans h.capacity.symm
      rw [← ih h']
      constructor
      · refine fun hs => ⟨rfl, fun n => ?_⟩
        obtain ⟨d, hd, hle⟩ := hs (n + 1)
        refine ⟨d, ?_, hcap ▸ hle⟩
        simpa [calls, hc'] using hd
      · rintro ⟨-, hs⟩ n
        cases n with
        | zero => exact ⟨c, rfl, by simp [size, h.map]⟩
        | succ n =>
          obtain ⟨d, hd, hle⟩ := hs n
          exact ⟨d, by simpa [calls, hc'] using hd, hcap ▸ hle⟩

end room

end IceLog.LRUCache
