import Mathlib.Data.List.Dedup
import IceLog.Cache.Calls
import IceLog.Data.Association
import IceLog.Data.Recency

/-! The order in which a cache keeps its pairs, and what it tells about which keys are cached. -/
namespace IceLog.LRUCache

open Association Recency

variable {K V : Type} [DecidableEq K] {c c' d : LRUCache K V} {l l' : List (K × V)} {a n n' : ℕ}
  {k : K} {v : V} {q : Call K V} {qs : List (Call K V)} {ts : List K} {capacity : ℕ}

/-- The pair comes to the front, in place of the one of its key. -/
def bump (k : K) (v : V) (l : List (K × V)) : List (K × V) := (k, v) :: l.filter fun e => e.1 ≠ k

/-- What a call makes of the cached pairs. -/
def Call.order (capacity : ℕ) (l : List (K × V)) : Call K V → List (K × V)
  | get key => (l.lookup key).elim l fun value => bump key value l
  | put key value => (bump key value l).take capacity
  | q => l.filter fun e => !q.removes e.1

/-- The hits of a call. -/
def Call.hits (l : List (K × V)) : Call K V → ℕ
  | get key => if (l.lookup key).isSome then 1 else 0
  | _ => 0

@[simp] theorem keys_bump : (bump k v l).map Prod.fst = touch k (l.map Prod.fst) := by
  simp [bump, touch, List.filter_map, Function.comp_def]

/-! What the calls make of the list of nodes. -/

omit [DecidableEq K] in
theorem keys_entries (c : LRUCache K V) : c.entries.map Prod.fst = c.lruList.map Node.key := by
  simp [entries, Function.comp_def]

theorem WellFormed.lookup_hit (h : c.WellFormed) (ha : c.map.lookup k = some a) :
    ∃ v, node c.lruList a = some ⟨a, k, v⟩ ∧ ⟨a, k, v⟩ ∈ c.lruList ∧
      c.entries.lookup k = some v := by
  obtain ⟨v, hv, hm⟩ := h.node_eq (mem_of_lookup ha)
  refine ⟨v, hv, hm, lookup_of_mem ?_ (List.mem_map_of_mem hm)⟩
  rw [keys_entries]
  exact h.keys

theorem WellFormed.lookup_miss (h : c.WellFormed) (ha : c.map.lookup k = none) :
    k ∉ c.entries.map Prod.fst := by
  rw [keys_entries, ← h.mem_keys]
  rintro hk
  obtain ⟨⟨k, a⟩, hka, rfl⟩ := List.mem_map.mp hk
  exact not_mem_of_lookup ha a hka

theorem WellFormed.entries_removeNode (h : c.WellFormed) (hm : ⟨a, k, v⟩ ∈ c.lruList) :
    (removeNode c.lruList a).map (fun n => (n.key, n.value)) =
      c.entries.filter fun e => e.1 ≠ k := by
  rw [entries, List.filter_map, removeNode]
  congr 1
  refine List.filter_congr fun x hx => ?_
  rw [Bool.eq_iff_iff]
  simp only [bne_iff_ne, ne_eq, Function.comp_apply, decide_eq_true_eq, not_iff_not]
  constructor
  · intro ha
    exact congrArg Node.key (List.inj_on_of_nodup_map h.addrs hx hm ha)
  · intro hk
    exact congrArg Node.addr (List.inj_on_of_nodup_map h.keys hx hm hk)

theorem get_order (h : c.WellFormed) {o : Option V} (hg : c.get k = some (o, c')) :
    o = c.entries.lookup k ∧ c'.entries = (Call.get k).order c.capacity c.entries ∧
      c'.hitCount = c.hitCount + (Call.get k).hits c.entries := by
  simp only [get] at hg
  cases ha : c.map.lookup k with
  | none =>
    have hk : c.entries.lookup k = none := by
      exact Option.not_isSome_iff_eq_none.mp (mt lookup_isSome_iff.mp (h.lookup_miss ha))
    simp only [ha, Option.some.injEq, Prod.mk.injEq] at hg
    obtain ⟨rfl, rfl⟩ := hg
    exact ⟨hk.symm, by rw [Call.order, hk]; rfl, by rw [Call.hits, hk]; rfl⟩
  | some a =>
    obtain ⟨v, hv, hm, hk⟩ := h.lookup_hit ha
    simp only [ha, hv, Option.map_some, Option.some.injEq, Prod.mk.injEq] at hg
    obtain ⟨rfl, rfl⟩ := hg
    refine ⟨hk.symm, ?_, by rw [Call.hits, hk]; rfl⟩
    rw [Call.order, hk, Option.elim_some, bump, ← h.entries_removeNode hm]
    rfl

theorem evict_order (h : c.WellFormed) (he : c.evict = some c') :
    c'.entries = c.entries.take (c.capacity - 1) ∧ c'.hitCount = c.hitCount := by
  have hfits := h.fits
  simp only [evict] at he
  split at he
  · rename_i hfull
    obtain ⟨last, -, rfl⟩ := Option.map_eq_some_iff.mp he
    refine ⟨?_, rfl⟩
    rw [entries, entries, List.map_dropLast, List.dropLast_eq_take, List.length_map]
    congr 1
    omega
  · cases he
    refine ⟨(List.take_of_length_le ?_).symm, rfl⟩
    rw [entries, List.length_map]
    omega

theorem put_order (h : c.WellFormed) (hc : 1 ≤ c.capacity) (hp : c.put k v = some c') :
    c'.entries = (Call.put k v).order c.capacity c.entries ∧ c'.hitCount = c.hitCount := by
  simp only [put] at hp
  cases ha : c.map.lookup k with
  | none =>
    simp only [ha] at hp
    obtain ⟨d, hd, rfl⟩ := Option.map_eq_some_iff.mp hp
    obtain ⟨hl, hh⟩ := evict_order h hd
    refine ⟨?_, hh⟩
    have hfree : c.entries.filter (fun e => e.1 ≠ k) = c.entries := by
      refine List.filter_eq_self.mpr fun e he => ?_
      simpa using fun hk : e.1 = k => h.lookup_miss ha (hk ▸ List.mem_map_of_mem he)
    obtain ⟨m, hm⟩ : ∃ m, c.capacity = m + 1 := ⟨c.capacity - 1, by omega⟩
    rw [Call.order, bump, hfree, hm, List.take_succ_cons]
    rw [hm, Nat.add_sub_cancel] at hl
    rw [← hl]
    rfl
  | some a =>
    obtain ⟨w, hw, hm, -⟩ := h.lookup_hit ha
    simp only [ha, hw, Option.map_some, Option.some.injEq] at hp
    obtain rfl := hp
    refine ⟨?_, rfl⟩
    have hlen : (bump k v c.entries).length ≤ c.capacity := by
      have hwf := (h.splice hm c.hitCount (w := v)).fits
      rw [bump, ← h.entries_removeNode hm]
      simpa using hwf
    rw [Call.order, List.take_of_length_le hlen, bump, ← h.entries_removeNode hm]
    rfl

omit [DecidableEq K] in
theorem invalidateIf_order (h : c.WellFormed) {p : K → Bool}
    (hi : c.invalidateIf p = some (c', n)) :
    c'.entries = c.entries.filter (fun e => !p e.1) ∧ c'.hitCount = c.hitCount := by
  have hmem := mem_invalidateIf h hi
  obtain ⟨⟨m, l, r⟩, hs, he⟩ := Option.map_eq_some_iff.mp hi
  cases he
  obtain ⟨-, rfl, -⟩ := sweep_eq hs
  refine ⟨?_, rfl⟩
  simp only [entries, List.filter_map]
  congr 1
  refine List.filter_congr fun x hx => ?_
  have hx' := hmem x
  simp only [List.mem_filter, hx, true_and] at hx'
  rw [Bool.eq_iff_iff, hx']
  simp

/-- Every call is defined. -/
theorem exists_call (h : c.WellFormed) (hc : 1 ≤ c.capacity) (q : Call K V) :
    ∃ c', c.call q = some c' ∧ c'.WellFormed ∧ c'.capacity = c.capacity := by
  have hr : c.Recalls fun k => c.entries.lookup k := by
    intro k v hkv
    refine lookup_of_mem ?_ hkv
    rw [keys_entries]
    exact h.keys
  obtain ⟨c', hq, hl, -⟩ := call_leads h hc hr q
  exact ⟨c', hq, hl.wellFormed, hl.capacity⟩

/-- One call of any kind, on the cached pairs. -/
theorem call_order (h : c.WellFormed) (hc : 1 ≤ c.capacity) (hq : c.call q = some c') :
    c'.entries = q.order c.capacity c.entries ∧ c'.hitCount = c.hitCount + q.hits c.entries := by
  cases q with
  | get k =>
    obtain ⟨⟨o, c''⟩, hg, rfl⟩ := Option.map_eq_some_iff.mp hq
    exact (get_order h hg).2
  | put k v => exact put_order h hc hq
  | invalidate k =>
    rw [call, invalidate_eq h] at hq
    obtain ⟨⟨c'', n⟩, hi, rfl⟩ := Option.map_eq_some_iff.mp hq
    exact invalidateIf_order h hi
  | invalidateIf p =>
    obtain ⟨⟨c'', n⟩, hi, rfl⟩ := Option.map_eq_some_iff.mp hq
    exact invalidateIf_order h hi
  | clear =>
    cases hq
    simp [clear, entries, Call.order, Call.hits, Call.removes]

/-! Sequences of gets and puts. -/

def Call.uses : Call K V → Bool
  | get _ | put .. => true
  | _ => false

/-- The key of a put, or of a get that hits. -/
def Call.touched (c : LRUCache K V) : Call K V → Option K
  | get key => if (c.get key).any fun r => r.1.isSome then some key else none
  | put key _ => some key
  | _ => none

/-- The touches of a sequence of calls, in their order. -/
def touches (c : LRUCache K V) : List (Call K V) → List K
  | [] => []
  | q :: qs => (q.touched c).toList ++ (c.call q).elim [] fun c' => touches c' qs

theorem touched_get (h : c.WellFormed) (k : K) :
    (Call.get k : Call K V).touched c = if k ∈ c.entries.map Prod.fst then some k else none := by
  have hg := Cache.raw_get ⟨c, h⟩ k
  rw [Call.touched, hg, (get_order h hg).1]
  simp only [Option.any_some, lookup_isSome_iff]

/-- The cached keys are the last ones that have been touched. -/
theorem call_touches (h : c.WellFormed) (hc : 1 ≤ c.capacity) (hq : q.uses = true)
    (hcall : c.call q = some c') (h' : c'.WellFormed) (hcap : c'.capacity = c.capacity)
    (hk : c.entries.map Prod.fst = (distinct ts).take c.capacity) :
    c'.entries.map Prod.fst =
      (distinct ((q.touched c).toList.reverse ++ ts)).take c.capacity := by
  have ho := (call_order h hc hcall).1
  have hcut : ∀ k, (touch k (c.entries.map Prod.fst)).take c.capacity =
      (touch k (distinct ts)).take c.capacity := by
    intro k
    rw [hk, take_touch_take (nodup_distinct ts)]
  cases q with
  | get k =>
    rw [touched_get h]
    by_cases hm : k ∈ c.entries.map Prod.fst
    · obtain ⟨v, hv⟩ := Option.isSome_iff_exists.mp (lookup_isSome_iff.mpr hm)
      rw [Call.order, hv, Option.elim_some] at ho
      have hlen : (touch k (c.entries.map Prod.fst)).length ≤ c.capacity := by
        have := h'.fits
        rw [← keys_bump (v := v), ← ho, List.length_map, entries, List.length_map]
        omega
      rw [if_pos hm, ho, keys_bump, ← List.take_of_length_le hlen, hcut k]
      rfl
    · have hv : c.entries.lookup k = none := Option.not_isSome_iff_eq_none.mp
        (mt lookup_isSome_iff.mp hm)
      rw [Call.order, hv, Option.elim_none] at ho
      rw [if_neg hm, ho, hk]
      rfl
  | put k v =>
    rw [ho, Call.order, List.map_take, keys_bump, hcut k]
    rfl
  | _ => cases hq

theorem calls_touches (h : c.WellFormed) (hc : 1 ≤ c.capacity) (hqs : ∀ q ∈ qs, q.uses = true)
    (hk : c.entries.map Prod.fst = (distinct ts).take c.capacity) :
    ∃ d, c.calls qs = some d ∧ d.WellFormed ∧
      d.entries.map Prod.fst = (distinct ((c.touches qs).reverse ++ ts)).take c.capacity := by
  induction qs generalizing c ts with
  | nil => exact ⟨c, rfl, h, hk⟩
  | cons q qs ih =>
    obtain ⟨c', hq, hwf, hcap⟩ := exists_call h hc q
    have hk' := call_touches h hc (hqs q (by simp)) hq hwf hcap hk
    rw [← hcap] at hk'
    obtain ⟨d, hd, hwfd, hkd⟩ := ih hwf (hcap ▸ hc)
      (fun q hm => hqs q (List.mem_cons_of_mem _ hm)) hk'
    refine ⟨d, by simp [calls, hq, hd], hwfd, ?_⟩
    rw [hkd, hcap, touches, hq, Option.elim_some, List.reverse_append, List.append_assoc]

/-- What is touched was cached before, or has been put. -/
theorem mem_touches (h : c.WellFormed) (hc : 1 ≤ c.capacity) (hm : k ∈ c.touches qs) :
    k ∈ c.entries.map Prod.fst ∨ ∃ v, Call.put k v ∈ qs := by
  induction qs generalizing c with
  | nil => cases hm
  | cons q qs ih =>
    obtain ⟨c', hq, hwf, hcap⟩ := exists_call h hc q
    rw [touches, hq, Option.elim_some, List.mem_append] at hm
    rcases hm with hm | hm
    · cases q with
      | get key =>
        rw [touched_get h] at hm
        split at hm
        · rename_i hk
          obtain rfl : k = key := by simpa using hm
          exact .inl hk
        · cases hm
      | put key value =>
        obtain rfl : k = key := by simpa [Call.touched] using hm
        exact .inr ⟨value, by simp⟩
      | _ => cases hm
    · rcases ih hwf (hcap ▸ hc) hm with hk | ⟨v, hv⟩
      · rw [(call_order h hc hq).1] at hk
        cases q with
        | get key =>
          cases hv : c.entries.lookup key with
          | none =>
            rw [Call.order, hv] at hk
            exact .inl hk
          | some value =>
            rw [Call.order, hv, Option.elim_some, keys_bump, mem_touch] at hk
            refine .inl (hk.elim ?_ id)
            rintro rfl
            exact lookup_isSome_iff.mp (by simp [hv])
        | put key value =>
          rw [Call.order, List.map_take] at hk
          have hk := List.mem_of_mem_take hk
          rw [keys_bump, mem_touch] at hk
          refine hk.elim ?_ .inl
          rintro rfl
          exact .inr ⟨value, by simp⟩
        | _ => exact .inl (List.Sublist.subset (List.filter_sublist.map _) hk)
      · exact .inr ⟨v, List.mem_cons_of_mem _ hv⟩

theorem put_mem_touches (h : c.WellFormed) (hc : 1 ≤ c.capacity) (hm : Call.put k v ∈ qs) :
    k ∈ c.touches qs := by
  induction qs generalizing c with
  | nil => cases hm
  | cons q qs ih =>
    obtain ⟨c', hq, hwf, hcap⟩ := exists_call h hc q
    rw [touches, hq, Option.elim_some, List.mem_append]
    rcases List.mem_cons.mp hm with rfl | hm
    · exact .inl (by simp [Call.touched])
    · exact .inr (ih hwf (hcap ▸ hc) hm)

theorem length_distinct (l : List K) : (distinct l).length = l.dedup.length :=
  ((List.perm_ext_iff_of_nodup (nodup_distinct l) l.nodup_dedup).mpr fun a => by simp).length_eq

/-- After any gets and puts on a new cache, the cached keys are those that have been put and
after whose last touch fewer than `capacity` other keys have been touched; the list has them in the
order of their last touches. -/
theorem exact_eviction (hc : 1 ≤ capacity) (hqs : ∀ q ∈ qs, q.uses = true) :
    ∃ c, (new capacity : LRUCache K V).calls qs = some c ∧
      let recent := (touches (new capacity) qs).reverse
      (∀ k, k ∈ c.map.map Prod.fst ↔ (∃ v, Call.put k v ∈ qs) ∧
        (recent.takeWhile (· ≠ k)).dedup.length < capacity) ∧
      (c.lruList.map Node.key).Pairwise fun k k' => recent.idxOf k < recent.idxOf k' := by
  obtain ⟨c, hcalls, hwf, hk⟩ := @calls_touches _ _ _ (new capacity) qs [] (new_wellFormed capacity)
    hc hqs (by simp [new, entries, distinct])
  rw [List.append_nil, keys_entries] at hk
  refine ⟨c, hcalls, fun k => ?_, ?_⟩
  · rw [hwf.mem_keys, hk, mem_take_iff, takeWhile_distinct, length_distinct, mem_distinct,
      List.mem_reverse]
    refine and_congr_left fun _ => ?_
    constructor
    · intro hm
      refine (mem_touches (new_wellFormed capacity) hc hm).resolve_left ?_
      exact List.not_mem_nil
    · rintro ⟨v, hv⟩
      exact put_mem_touches (new_wellFormed capacity) hc hv
  · rw [hk]
    exact (pairwise_distinct _).sublist (List.take_sublist _ _)

theorem exact_eviction_of_three : ∃ c,
    (new 2 : LRUCache ℕ ℕ).calls [.put 1 5, .put 2 6, .get 1, .put 3 7, .get 2] = some c ∧
      let recent := (touches (new 2) [.put 1 5, .put 2 6, .get 1, .put 3 7, .get 2]).reverse
      (∀ k, k ∈ c.map.map Prod.fst ↔
        (∃ v, Call.put k v ∈ [.put 1 5, .put 2 6, .get 1, .put 3 7, .get 2]) ∧
        (recent.takeWhile (· ≠ k)).dedup.length < 2) ∧
      (c.lruList.map Node.key).Pairwise fun k k' => recent.idxOf k < recent.idxOf k' :=
  exact_eviction (by decide) (by decide)

/-! Two caches of different capacity. -/

/-- What the smaller cache keeps, the larger keeps in the same order, and beyond it no more than
it is larger. -/
structure Within (n n' : ℕ) (l l' : List (K × V)) : Prop where
  sublist : l.Sublist l'
  keys : (l'.map Prod.fst).Nodup
  extra : l'.length + n ≤ l.length + n'

omit [DecidableEq K] in
theorem Within.filter (h : Within n n' l l') (p : K × V → Bool) :
    Within n n' (l.filter p) (l'.filter p) := by
  refine ⟨h.sublist.filter p, (List.filter_sublist.map _).nodup h.keys, ?_⟩
  have := length_filter_le h.sublist p
  have := h.extra
  omega

theorem keys_bump_nodup (h : (l.map Prod.fst).Nodup) (k : K) (v : V) :
    ((bump k v l).map Prod.fst).Nodup := by
  rw [keys_bump]
  exact nodup_touch h

theorem Within.bump (h : Within n n' l l') (k : K) (v : V) :
    Within n n' (bump k v l) (bump k v l') := by
  have hf := h.filter fun e => decide (e.1 ≠ k)
  refine ⟨hf.sublist.cons_cons _, keys_bump_nodup h.keys k v, ?_⟩
  have := hf.extra
  simp only [LRUCache.bump, List.length_cons]
  omega

omit [DecidableEq K] in
theorem Within.take (h : Within n n' l l') (hn : n ≤ n') :
    Within n n' (l.take n) (l'.take n') := by
  have hextra := h.extra
  obtain ⟨m, rfl⟩ := Nat.exists_eq_add_of_le hn
  refine ⟨take_sublist_take h.sublist (by omega) n, ?_, ?_⟩
  · exact ((List.take_sublist _ _).map _).nodup h.keys
  · simp only [List.length_take]
    omega

theorem Within.lookup (h : Within n n' l l') (hk : l.lookup k = some v) :
    l'.lookup k = some v :=
  lookup_of_mem h.keys (h.sublist.subset (mem_of_lookup_eq hk))

/-- A call that is made on both keeps them so. -/
theorem Within.call (h : Within n n' l l') (hn : n ≤ n') (q : Call K V) :
    Within n n' (q.order n l) (q.order n' l') ∧ q.hits l ≤ q.hits l' := by
  cases q with
  | get k =>
    cases hv : l.lookup k with
    | some v =>
      simp only [Call.order, Call.hits, hv, h.lookup hv, Option.elim_some]
      exact ⟨h.bump k v, le_rfl⟩
    | none =>
      refine ⟨?_, by simp [Call.hits, hv]⟩
      cases hv' : l'.lookup k with
      | none => simpa [Call.order, hv, hv'] using h
      | some v =>
        simp only [Call.order, hv, hv', Option.elim_none, Option.elim_some]
        have hfree : l.filter (fun e => decide (e.1 ≠ k)) = l := by
          refine List.filter_eq_self.mpr fun e he => ?_
          have := List.lookup_eq_none_iff.mp hv e he
          simpa using Ne.symm (by simpa using this)
        have hsub := h.sublist.filter fun e => decide (e.1 ≠ k)
        rw [hfree] at hsub
        refine ⟨hsub.cons _, keys_bump_nodup h.keys k v, ?_⟩
        have hlt : (l'.filter fun e => decide (e.1 ≠ k)).length < l'.length := by
          refine List.length_filter_lt_length_iff_exists.mpr ⟨(k, v), mem_of_lookup_eq hv', ?_⟩
          simp
        have := h.extra
        simp only [LRUCache.bump, List.length_cons]
        omega
  | put k v => exact ⟨(h.bump k v).take hn, le_rfl⟩
  | _ => exact ⟨h.filter _, le_rfl⟩

theorem calls_within (h : c.WellFormed) (hd : d.WellFormed) (hc : 1 ≤ c.capacity)
    (hcd : c.capacity ≤ d.capacity)
    (hw : Within c.capacity d.capacity c.entries d.entries) (hhits : c.hitCount ≤ d.hitCount)
    (qs : List (Call K V)) : ∃ c' d', c.calls qs = some c' ∧ d.calls qs = some d' ∧
      c'.WellFormed ∧ d'.WellFormed ∧
      Within c.capacity d.capacity c'.entries d'.entries ∧ c'.hitCount ≤ d'.hitCount := by
  induction qs generalizing c d with
  | nil => exact ⟨c, d, rfl, rfl, h, hd, hw, hhits⟩
  | cons q qs ih =>
    obtain ⟨c₁, hq, h₁, hcap⟩ := exists_call h hc q
    obtain ⟨d₁, hq', hd₁, hcap'⟩ := exists_call hd (hc.trans hcd) q
    obtain ⟨ho, hh⟩ := call_order h hc hq
    obtain ⟨ho', hh'⟩ := call_order hd (hc.trans hcd) hq'
    obtain ⟨hw₁, hle⟩ := hw.call hcd q
    rw [← ho, ← ho', ← hcap, ← hcap'] at hw₁
    obtain ⟨c', d', hcalls, hcalls', hrest⟩ :=
      ih h₁ hd₁ (hcap ▸ hc) (by omega) hw₁ (by omega)
    rw [hcap, hcap'] at hrest
    exact ⟨c', d', by simp [calls, hq, hcalls], by simp [calls, hq', hcalls'], hrest⟩

/-- After any calls that are made on two new caches, the larger one has what the smaller one has,
answers its hits, and has counted no fewer. -/
theorem larger_cache (hn : 1 ≤ n) (hnn : n ≤ n') (qs : List (Call K V)) :
    ∃ c d, (new n : LRUCache K V).calls qs = some c ∧ (new n').calls qs = some d ∧
      c.entries.Sublist d.entries ∧
      (∀ k v c', c.get k = some (some v, c') → ∃ d', d.get k = some (some v, d')) ∧
      c.hitCount ≤ d.hitCount := by
  obtain ⟨c, d, hc, hd, hwc, hwd, hw, hhits⟩ := calls_within (new_wellFormed n)
    (new_wellFormed n') hn hnn ⟨List.Sublist.refl _, List.nodup_nil, by simpa [new, entries] using hnn⟩
    (Nat.le_refl 0) qs
  refine ⟨c, d, hc, hd, hw.sublist, fun k v c' hg => ?_, hhits⟩
  have hv := hw.lookup (get_order hwc hg).1.symm
  have hg' := Cache.raw_get ⟨d, hwd⟩ k
  rw [(get_order hwd hg').1, hv] at hg'
  exact ⟨_, hg'⟩

theorem larger_cache_small : ∃ c d,
    (new 1 : LRUCache ℕ ℕ).calls [.put 1 5, .put 2 6, .invalidate 2, .get 1] = some c ∧
      (new 2).calls [.put 1 5, .put 2 6, .invalidate 2, .get 1] = some d ∧
      c.entries.Sublist d.entries ∧
      (∀ k v c', c.get k = some (some v, c') → ∃ d', d.get k = some (some v, d')) ∧
      c.hitCount ≤ d.hitCount :=
  larger_cache (by decide) (by decide) _

end IceLog.LRUCache
