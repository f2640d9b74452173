import Mathlib.Data.List.Basic
import Mathlib.Data.List.Nodup
import Mathlib.Data.Nat.Notation
import Mathlib.Order.Basic

/-! The LRU cache: a list of nodes and a map of iterators into it. A node's address stands
for the iterator that designates it. `none` marks undefined behaviour: an iterator that
designates no node, or `back()` of an empty list. -/
namespace IceLog

variable {K V : Type}

structure Node (K V : Type) where
  addr : ℕ
  key : K
  value : V

structure LRUCache (K V : Type) where
  capacity : ℕ
  lruList : List (Node K V)
  map : List (K × ℕ)
  nextAddr : ℕ
  hitCount : ℕ
  missCount : ℕ
  evictionCount : ℕ

namespace LRUCache

def new (capacity : ℕ) : LRUCache K V := ⟨capacity, [], [], 0, 0, 0, 0⟩

variable [DecidableEq K]

/-- The node an iterator designates. -/
def node (l : List (Node K V)) (a : ℕ) : Option (Node K V) := l.find? fun n => n.addr == a

def removeNode (l : List (Node K V)) (a : ℕ) : List (Node K V) := l.filter fun n => n.addr != a

def get (c : LRUCache K V) (key : K) : Option (Option V × LRUCache K V) :=
  match c.map.lookup key with
  | none => some (none, { c with missCount := c.missCount + 1 })
  | some a => (node c.lruList a).map fun n =>
      (some n.value,
        { c with hitCount := c.hitCount + 1, lruList := n :: removeNode c.lruList a })

/-- Make room for one entry. -/
def evict (c : LRUCache K V) : Option (LRUCache K V) :=
  if c.capacity ≤ c.lruList.length then
    c.lruList.getLast?.map fun last =>
      { c with map := c.map.filter fun e => e.1 != last.key, lruList := c.lruList.dropLast,
               evictionCount := c.evictionCount + 1 }
  else some c

def put (c : LRUCache K V) (key : K) (value : V) : Option (LRUCache K V) :=
  match c.map.lookup key with
  | some a => (node c.lruList a).map fun n =>
      { c with lruList := ⟨n.addr, n.key, value⟩ :: removeNode c.lruList a }
  | none => c.evict.map fun c =>
      { c with lruList := ⟨c.nextAddr, key, value⟩ :: c.lruList, map := (key, c.nextAddr) :: c.map,
               nextAddr := c.nextAddr + 1 }

def invalidate (c : LRUCache K V) (key : K) : Option (LRUCache K V) :=
  match c.map.lookup key with
  | some a => (node c.lruList a).map fun _ =>
      { c with lruList := removeNode c.lruList a, map := c.map.filter fun e => e.1 != key }
  | none => some c

/-- The loop of `invalidate_if` over the map's entries. -/
def sweep (predicate : K → Bool) :
    List (K × ℕ) → List (Node K V) → Option (List (K × ℕ) × List (Node K V) × ℕ)
  | [], l => some ([], l, 0)
  | (k, a) :: m, l =>
    if predicate k then
      (node l a).bind fun _ => (sweep predicate m (removeNode l a)).map fun (m', l', removed) =>
        (m', l', removed + 1)
    else (sweep predicate m l).map fun (m', l', removed) => ((k, a) :: m', l', removed)

def invalidateIf (c : LRUCache K V) (predicate : K → Bool) : Option (LRUCache K V × ℕ) :=
  (sweep predicate c.map c.lruList).map fun (m, l, removed) =>
    ({ c with map := m, lruList := l }, removed)

def clear (c : LRUCache K V) : LRUCache K V := { c with lruList := [], map := [] }

def size (c : LRUCache K V) : ℕ := c.map.length

/-- The cached pairs, most recently used first. -/
def entries (c : LRUCache K V) : List (K × V) := c.lruList.map fun n => (n.key, n.value)

/-- The list and the map agree, and the list fits the capacity. -/
structure WellFormed (c : LRUCache K V) : Prop where
  addrs : (c.lruList.map Node.addr).Nodup
  keys : (c.lruList.map Node.key).Nodup
  mapKeys : (c.map.map Prod.fst).Nodup
  designates : ∀ k a, (k, a) ∈ c.map ↔ ∃ v, ⟨a, k, v⟩ ∈ c.lruList
  fresh : ∀ n ∈ c.lruList, n.addr < c.nextAddr
  fits : c.lruList.length ≤ c.capacity

section lists
variable {l : List (Node K V)} {m : List (K × ℕ)} {n : Node K V} {a : ℕ} {k : K}

omit [DecidableEq K] in
theorem mem_removeNode : n ∈ removeNode l a ↔ n ∈ l ∧ n.addr ≠ a := by
  simp [removeNode, List.mem_filter]

omit [DecidableEq K] in
theorem node_of_mem (hl : (l.map Node.addr).Nodup) (h : n ∈ l) : node l n.addr = some n := by
  induction l with
  | nil => cases h
  | cons x l ih =>
    rw [List.map_cons, List.nodup_cons] at hl
    rcases List.mem_cons.mp h with rfl | h
    · simp [node]
    · have hne : x.addr ≠ n.addr := by
        intro he
        exact hl.1 (he ▸ List.mem_map_of_mem h)
      simpa [node, List.find?_cons, hne] using ih hl.2 h

omit [DecidableEq K] in
theorem mem_of_node (h : node l a = some n) : n ∈ l ∧ n.addr = a :=
  ⟨List.mem_of_find?_eq_some h, by simpa using List.find?_some h⟩

theorem mem_of_lookup (h : m.lookup k = some a) : (k, a) ∈ m := by
  induction m with
  | nil => cases h
  | cons e m ih =>
    obtain ⟨k', a'⟩ := e
    by_cases he : k = k'
    · subst he
      simp_all
    · have hb : (k == k') = false := by simpa using he
      rw [List.lookup_cons, hb] at h
      exact List.mem_cons_of_mem _ (ih h)

theorem not_mem_of_lookup (h : m.lookup k = none) (a : ℕ) : (k, a) ∉ m := by
  induction m with
  | nil => simp
  | cons e m ih =>
    obtain ⟨k', a'⟩ := e
    by_cases he : k = k'
    · subst he
      simp at h
    · have hb : (k == k') = false := by simpa using he
      rw [List.lookup_cons, hb] at h
      simpa [he] using ih h

end lists

section laws
variable {c c' : LRUCache K V} {k : K} {v : V}

omit [DecidableEq K] in
theorem new_wellFormed (capacity : ℕ) : (new capacity : LRUCache K V).WellFormed where
  addrs := List.nodup_nil
  keys := List.nodup_nil
  mapKeys := List.nodup_nil
  designates k a := by simp [new]
  fresh n hn := by simp [new] at hn
  fits := Nat.zero_le _

omit [DecidableEq K] in
theorem WellFormed.node_eq (h : c.WellFormed) {a : ℕ} (hm : (k, a) ∈ c.map) :
    ∃ v, node c.lruList a = some ⟨a, k, v⟩ ∧ ⟨a, k, v⟩ ∈ c.lruList := by
  obtain ⟨v, hv⟩ := (h.designates k a).mp hm
  exact ⟨v, node_of_mem h.addrs hv, hv⟩

omit [DecidableEq K] in
/-- Moving a node to the front, with the same address and key, keeps the invariant. -/
theorem WellFormed.splice (h : c.WellFormed) {a : ℕ} {v w : V} (hv : ⟨a, k, v⟩ ∈ c.lruList)
    (hits : ℕ) : WellFormed { c with
      hitCount := hits
      lruList := ⟨a, k, w⟩ :: removeNode c.lruList a } := by
  have hsub : (removeNode c.lruList a).Sublist c.lruList := List.filter_sublist
  have hkey : ∀ n ∈ removeNode c.lruList a, n.key ≠ k := by
    intro n hn he
    obtain ⟨hn, hna⟩ := mem_removeNode.mp hn
    have hsame := List.inj_on_of_nodup_map h.keys hn hv he
    exact hna (by rw [hsame])
  have hlen : (removeNode c.lruList a).length < c.lruList.length := by
    refine List.length_filter_lt_length_iff_exists.mpr ⟨_, hv, by simp⟩
  constructor
  · simp only [List.map_cons, List.nodup_cons]
    refine ⟨?_, (hsub.map _).nodup h.addrs⟩
    intro hm
    obtain ⟨n, hn, he⟩ := List.mem_map.mp hm
    exact (mem_removeNode.mp hn).2 he
  · simp only [List.map_cons, List.nodup_cons]
    refine ⟨?_, (hsub.map _).nodup h.keys⟩
    intro hm
    obtain ⟨n, hn, he⟩ := List.mem_map.mp hm
    exact hkey n hn he
  · exact h.mapKeys
  · intro k' a'
    rw [h.designates]
    constructor
    · rintro ⟨v', hv'⟩
      by_cases ha : a' = a
      · subst ha
        have hsame := List.inj_on_of_nodup_map h.addrs hv' hv rfl
        obtain ⟨-, rfl, -⟩ := Node.mk.inj hsame
        exact ⟨w, List.mem_cons_self⟩
      · exact ⟨v', List.mem_cons_of_mem _ (mem_removeNode.mpr ⟨hv', ha⟩)⟩
    · rintro ⟨v', hv'⟩
      rcases List.mem_cons.mp hv' with he | hm
      · obtain ⟨rfl, rfl, -⟩ := Node.mk.inj he
        exact ⟨v, hv⟩
      · exact ⟨v', (mem_removeNode.mp hm).1⟩
  · intro n hn
    rcases List.mem_cons.mp hn with rfl | hn
    · exact h.fresh ⟨a, k, v⟩ hv
    · exact h.fresh n (mem_removeNode.mp hn).1
  · have := h.fits
    simp only [List.length_cons]
    omega

theorem get_wellFormed (h : c.WellFormed) {o : Option V} (hg : c.get k = some (o, c')) :
    c'.WellFormed := by
  simp only [get] at hg
  split at hg
  · cases hg
    exact ⟨h.addrs, h.keys, h.mapKeys, h.designates, h.fresh, h.fits⟩
  · rename_i a ha
    obtain ⟨n, hn, he⟩ := Option.map_eq_some_iff.mp hg
    obtain ⟨-, rfl⟩ := Prod.mk.inj he
    obtain ⟨v, hv, hm⟩ := h.node_eq (mem_of_lookup ha)
    obtain rfl : _ = n := Option.some.inj (hv.symm.trans hn)
    exact h.splice hm _

theorem evict_wellFormed (h : c.WellFormed) (he : c.evict = some c') :
    c'.WellFormed ∧ c'.lruList.length < c'.capacity ∧ c'.nextAddr = c.nextAddr ∧
      (∀ n ∈ c'.lruList, n ∈ c.lruList) ∧ ∀ e ∈ c'.map, e ∈ c.map := by
  simp only [evict] at he
  split at he
  · rename_i hfull
    obtain ⟨last, hlast, rfl⟩ := Option.map_eq_some_iff.mp he
    obtain ⟨init, hinit⟩ : ∃ init, c.lruList = init ++ [last] := by
      obtain ⟨hne, hl⟩ := List.getLast?_eq_some_iff.mp hlast
      exact ⟨hne, hl⟩
    have hdrop : c.lruList.dropLast = init := by rw [hinit, List.dropLast_concat]
    have haddrs := h.addrs
    have hkeys := h.keys
    rw [hinit, List.map_append, List.nodup_append] at haddrs hkeys
    have hmem : ∀ n ∈ init, n ∈ c.lruList := fun n hn => by simp [hinit, hn]
    have hkey : ∀ n ∈ init, n.key ≠ last.key := by
      intro n hn
      exact hkeys.2.2 _ (List.mem_map_of_mem hn) _ (by simp)
    have hlen : init.length + 1 = c.lruList.length := by simp [hinit]
    have hfits := h.fits
    refine ⟨⟨?_, ?_, ?_, ?_, ?_, ?_⟩, ?_, rfl, ?_, fun e he => (List.mem_filter.mp he).1⟩
    · simpa [hdrop] using haddrs.1
    · simpa [hdrop] using hkeys.1
    · exact (List.filter_sublist.map _).nodup h.mapKeys
    · intro k a
      simp only [hdrop, List.mem_filter, h.designates, bne_iff_ne, ne_eq]
      constructor
      · rintro ⟨⟨v, hv⟩, hk⟩
        rw [hinit, List.mem_append, List.mem_singleton] at hv
        rcases hv with hv | hv
        · exact ⟨v, hv⟩
        · exact (hk (by rw [← hv])).elim
      · rintro ⟨v, hv⟩
        exact ⟨⟨v, hmem _ hv⟩, hkey _ hv⟩
    · intro n hn
      exact h.fresh n (hmem n (by simpa [hdrop] using hn))
    · simp only [hdrop]
      omega
    · simp only [hdrop]
      omega
    · intro n hn
      exact hmem n (by simpa [hdrop] using hn)
  · obtain rfl := Option.some.inj he
    exact ⟨h, by omega, rfl, fun n hn => hn, fun e he => he⟩

theorem put_wellFormed (h : c.WellFormed) (hp : c.put k v = some c') : c'.WellFormed := by
  simp only [put] at hp
  split at hp
  · rename_i a ha
    obtain ⟨n, hn, rfl⟩ := Option.map_eq_some_iff.mp hp
    obtain ⟨w, hw, hm⟩ := h.node_eq (mem_of_lookup ha)
    obtain rfl : _ = n := Option.some.inj (hw.symm.trans hn)
    exact h.splice hm c.hitCount
  · rename_i hk
    obtain ⟨d, hd, rfl⟩ := Option.map_eq_some_iff.mp hp
    obtain ⟨hw, hlen, hnext, hsub, hmap⟩ := evict_wellFormed h hd
    have hnew : ∀ a, (k, a) ∉ d.map := fun a ha => not_mem_of_lookup hk a (hmap _ ha)
    refine ⟨?_, ?_, ?_, ?_, ?_, ?_⟩
    · simp only [List.map_cons, List.nodup_cons]
      refine ⟨?_, hw.addrs⟩
      intro hm
      obtain ⟨n, hn, he⟩ := List.mem_map.mp hm
      exact absurd (hw.fresh n hn) (by omega)
    · simp only [List.map_cons, List.nodup_cons]
      refine ⟨?_, hw.keys⟩
      intro hm
      obtain ⟨n, hn, he⟩ := List.mem_map.mp hm
      exact hnew n.addr ((hw.designates _ _).mpr ⟨n.value, he ▸ hn⟩)
    · simp only [List.map_cons, List.nodup_cons]
      refine ⟨?_, hw.mapKeys⟩
      intro hm
      obtain ⟨e, he, hk'⟩ := List.mem_map.mp hm
      exact hnew e.2 (hk' ▸ he)
    · intro k' a'
      simp only [List.mem_cons, hw.designates, Prod.mk.injEq, Node.mk.injEq]
      constructor
      · rintro (⟨rfl, rfl⟩ | ⟨v', hv'⟩)
        · exact ⟨v, .inl ⟨rfl, rfl, rfl⟩⟩
        · exact ⟨v', .inr hv'⟩
      · rintro ⟨v', ⟨rfl, rfl, -⟩ | hv'⟩
        · exact .inl ⟨rfl, rfl⟩
        · exact .inr ⟨v', hv'⟩
    · intro n hn
      rcases List.mem_cons.mp hn with rfl | hn
      · exact Nat.lt_succ_self _
      · exact Nat.lt_succ_of_lt (hw.fresh n hn)
    · exact hlen

omit [DecidableEq K] in
/-- What the sweep keeps, the map entries and the nodes whose key is not matched, and what it
counts. -/
theorem sweep_eq {p : K → Bool} {m m' : List (K × ℕ)} {l l' : List (Node K V)} {n : ℕ}
    (h : sweep p m l = some (m', l', n)) :
    m' = m.filter (fun e => !p e.1) ∧
    (l' = l.filter fun x => m.all fun e => !(p e.1) || x.addr != e.2) ∧
    n = m.countP fun e => p e.1 := by
  induction m generalizing m' l l' n with
  | nil => simp_all [sweep]
  | cons e m ih =>
    obtain ⟨k, a⟩ := e
    simp only [sweep] at h
    split at h
    · rename_i hp
      obtain ⟨x, -, h⟩ := Option.bind_eq_some_iff.mp h
      obtain ⟨⟨m₁, l₁, n₁⟩, hs, he⟩ := Option.map_eq_some_iff.mp h
      cases he
      obtain ⟨rfl, rfl, rfl⟩ := ih hs
      refine ⟨by simp [hp], ?_, by simp [hp]⟩
      simp only [removeNode, List.filter_filter, List.all_cons, hp, Bool.not_true, Bool.false_or]
      refine List.filter_congr fun x _ => ?_
      exact Bool.and_comm _ _
    · rename_i hp
      obtain ⟨⟨m₁, l₁, n₁⟩, hs, he⟩ := Option.map_eq_some_iff.mp h
      cases he
      obtain ⟨rfl, rfl, rfl⟩ := ih hs
      simp [hp]

omit [DecidableEq K] in
theorem sweep_isSome {p : K → Bool} {m : List (K × ℕ)} {l : List (Node K V)}
    (hm : (m.map Prod.snd).Nodup) (hl : ∀ e ∈ m, (node l e.2).isSome) :
    (sweep p m l).isSome := by
  induction m generalizing l with
  | nil => rfl
  | cons e m ih =>
    obtain ⟨k, a⟩ := e
    rw [List.map_cons, List.nodup_cons] at hm
    simp only [sweep]
    split
    · obtain ⟨x, hx⟩ := Option.isSome_iff_exists.mp (hl (k, a) List.mem_cons_self)
      simp only [hx, Option.bind_some, Option.isSome_map]
      apply ih hm.2
      intro e he
      obtain ⟨y, hy⟩ := Option.isSome_iff_exists.mp (hl e (List.mem_cons_of_mem _ he))
      have hne : e.2 ≠ a := by
        intro heq
        exact hm.1 (heq ▸ List.mem_map.mpr ⟨e, he, rfl⟩)
      obtain ⟨hmem, haddr⟩ := mem_of_node hy
      refine List.find?_isSome.mpr ⟨y, mem_removeNode.mpr ⟨hmem, by rw [haddr]; exact hne⟩, ?_⟩
      simpa using haddr
    · rw [Option.isSome_map]
      exact ih hm.2 fun e he => hl e (List.mem_cons_of_mem _ he)

omit [DecidableEq K] in
theorem WellFormed.map_addrs (h : c.WellFormed) : (c.map.map Prod.snd).Nodup := by
  refine List.Nodup.map_on ?_ (List.Nodup.of_map _ h.mapKeys)
  rintro ⟨k, a⟩ hk ⟨k', a'⟩ hk' rfl
  obtain ⟨v, hv⟩ := (h.designates k a).mp hk
  obtain ⟨v', hv'⟩ := (h.designates k' a).mp hk'
  have hsame := List.inj_on_of_nodup_map h.addrs hv hv' rfl
  rw [(Node.mk.inj hsame).2.1]

omit [DecidableEq K] in
theorem mem_invalidateIf {p : K → Bool} {n : ℕ} (h : c.WellFormed)
    (hi : c.invalidateIf p = some (c', n)) (x : Node K V) :
    x ∈ c'.lruList ↔ x ∈ c.lruList ∧ p x.key = false := by
  obtain ⟨⟨m, l, r⟩, hs, he⟩ := Option.map_eq_some_iff.mp hi
  obtain ⟨rfl, -⟩ := Prod.mk.inj he
  obtain ⟨-, rfl, -⟩ := sweep_eq hs
  simp only [List.mem_filter, List.all_eq_true, Bool.or_eq_true, Bool.not_eq_true', bne_iff_ne]
  refine and_congr_right fun hx => ?_
  constructor
  · intro hall
    have hmem := (h.designates x.key x.addr).mpr ⟨x.value, hx⟩
    exact (hall _ hmem).resolve_right (by simp)
  · rintro hp ⟨k, a⟩ hka
    by_cases ha : x.addr = a
    · obtain ⟨v, hv⟩ := (h.designates k a).mp hka
      have hsame := List.inj_on_of_nodup_map h.addrs hx hv ha
      exact .inl (by rw [hsame] at hp; exact hp)
    · exact .inr ha

omit [DecidableEq K] in
theorem invalidateIf_wellFormed {p : K → Bool} {n : ℕ} (h : c.WellFormed)
    (hi : c.invalidateIf p = some (c', n)) : c'.WellFormed := by
  have hmem := mem_invalidateIf h hi
  obtain ⟨⟨m, l, r⟩, hs, he⟩ := Option.map_eq_some_iff.mp hi
  obtain ⟨rfl, -⟩ := Prod.mk.inj he
  obtain ⟨rfl, hl, -⟩ := sweep_eq hs
  have hsub : l.Sublist c.lruList := hl ▸ List.filter_sublist
  refine ⟨(hsub.map _).nodup h.addrs, (hsub.map _).nodup h.keys,
    (List.filter_sublist.map _).nodup h.mapKeys, ?_, fun n hn => h.fresh n (hsub.subset hn),
    Nat.le_trans hsub.length_le h.fits⟩
  intro k a
  simp only [List.mem_filter, h.designates, Bool.not_eq_true']
  constructor
  · rintro ⟨⟨v, hv⟩, hp⟩
    exact ⟨v, (hmem _).mpr ⟨hv, hp⟩⟩
  · rintro ⟨v, hv⟩
    obtain ⟨hv, hp⟩ := (hmem _).mp hv
    exact ⟨⟨v, hv⟩, hp⟩

end laws
end LRUCache

/-- A cache that only its own operations have built. -/
structure Cache (K V : Type) [DecidableEq K] extends LRUCache K V where
  wellFormed : toLRUCache.WellFormed

namespace Cache

variable [DecidableEq K] {c c' : Cache K V} {k : K} {v : V}

def new (capacity : ℕ) : Cache K V := ⟨.new capacity, LRUCache.new_wellFormed capacity⟩

/-- `get` on a well-formed cache; the last branch is never taken. -/
def get (c : Cache K V) (key : K) : Option V × Cache K V :=
  match h : c.toLRUCache.get key with
  | some (o, c') => (o, ⟨c', LRUCache.get_wellFormed c.wellFormed h⟩)
  | none => (none, c)

/-- `put`; there is no result where `put` takes `back()` of an empty list. -/
def put (c : Cache K V) (key : K) (value : V) : Option (Cache K V) :=
  match h : c.toLRUCache.put key value with
  | some c' => some ⟨c', LRUCache.put_wellFormed c.wellFormed h⟩
  | none => none

/-- `invalidate_if` on a well-formed cache; the last branch is never taken. -/
def invalidateIf (c : Cache K V) (predicate : K → Bool) : Cache K V × ℕ :=
  match h : c.toLRUCache.invalidateIf predicate with
  | some (c', removed) => (⟨c', LRUCache.invalidateIf_wellFormed c.wellFormed h⟩, removed)
  | none => (c, 0)

theorem mem_entries {k : K} {v : V} :
    (k, v) ∈ c.entries ↔ ∃ a, ⟨a, k, v⟩ ∈ c.lruList := by
  simp only [LRUCache.entries, List.mem_map, Prod.mk.injEq]
  constructor
  · rintro ⟨n, hn, rfl, rfl⟩
    exact ⟨n.addr, hn⟩
  · rintro ⟨a, ha⟩
    exact ⟨_, ha, rfl, rfl⟩

theorem raw_get (c : Cache K V) (k : K) :
    c.toLRUCache.get k = some ((c.get k).1, (c.get k).2.toLRUCache) := by
  have hsome : (c.toLRUCache.get k).isSome := by
    simp only [LRUCache.get]
    split
    · rfl
    · rename_i a ha
      obtain ⟨v, hv, -⟩ := c.wellFormed.node_eq (LRUCache.mem_of_lookup ha)
      simp [hv]
  simp only [get]
  split
  · rename_i o c' h
    exact h
  · rename_i h
    simp [h] at hsome

theorem raw_put (h : c.put k v = some c') : c.toLRUCache.put k v = some c'.toLRUCache := by
  simp only [put] at h
  split at h
  · rename_i d hd
    cases h
    exact hd
  · cases h

theorem put_eq {d : LRUCache K V} (h : c.toLRUCache.put k v = some d) :
    c.put k v = some ⟨d, LRUCache.put_wellFormed c.wellFormed h⟩ := by
  simp only [put]
  split
  · rename_i d' hd
    obtain rfl := Option.some.inj (hd.symm.trans h)
    rfl
  · rename_i hd
    cases hd.symm.trans h

theorem raw_invalidateIf (c : Cache K V) (p : K → Bool) :
    c.toLRUCache.invalidateIf p = some ((c.invalidateIf p).1.toLRUCache, (c.invalidateIf p).2) := by
  have hsome : (c.toLRUCache.invalidateIf p).isSome := by
    rw [LRUCache.invalidateIf, Option.isSome_map]
    refine LRUCache.sweep_isSome c.wellFormed.map_addrs ?_
    rintro ⟨k, a⟩ hk
    obtain ⟨v, hv, -⟩ := c.wellFormed.node_eq hk
    simp [hv]
  simp only [invalidateIf]
  split
  · rename_i c' n h
    exact h
  · rename_i h
    simp [h] at hsome

/-- A hit returns a cached pair. -/
theorem get_hit (h : (c.get k).1 = some v) : (k, v) ∈ c.entries := by
  have hr := raw_get c k
  rw [h] at hr
  simp only [LRUCache.get] at hr
  split at hr
  · cases hr
  · rename_i a ha
    obtain ⟨n, hn, he⟩ := Option.map_eq_some_iff.mp hr
    obtain ⟨w, hw, hm⟩ := c.wellFormed.node_eq (LRUCache.mem_of_lookup ha)
    obtain rfl : _ = n := Option.some.inj (hw.symm.trans hn)
    obtain rfl : w = v := Option.some.inj (Prod.mk.inj he).1
    exact mem_entries.mpr ⟨a, hm⟩

/-- `get` changes only the order. -/
theorem mem_get (c : Cache K V) (k : K) (e : K × V) :
    e ∈ (c.get k).2.entries ↔ e ∈ c.entries := by
  obtain ⟨k', v'⟩ := e
  have hr := raw_get c k
  rw [mem_entries, mem_entries]
  simp only [LRUCache.get] at hr
  split at hr
  · obtain ⟨-, he⟩ := Prod.mk.inj (Option.some.inj hr)
    rw [← he]
  · rename_i a ha
    obtain ⟨n, hn, he⟩ := Option.map_eq_some_iff.mp hr
    obtain ⟨-, he⟩ := Prod.mk.inj he
    obtain ⟨w, hw, hm⟩ := c.wellFormed.node_eq (LRUCache.mem_of_lookup ha)
    obtain rfl : _ = n := Option.some.inj (hw.symm.trans hn)
    rw [← he]
    refine exists_congr fun a' => ?_
    rw [List.mem_cons, LRUCache.mem_removeNode]
    constructor
    · rintro (he | ⟨hm, -⟩)
      · exact he ▸ hm
      · assumption
    · intro hx
      by_cases hax : a' = a
      · exact .inl (List.inj_on_of_nodup_map c.wellFormed.addrs hx hm hax)
      · exact .inr ⟨hx, hax⟩

/-- After a put, an entry is the new one or an old one under another key. -/
theorem mem_put (h : c.put k v = some c') {e : K × V} (he : e ∈ c'.entries) :
    e = (k, v) ∨ (e ∈ c.entries ∧ e.1 ≠ k) := by
  obtain ⟨k', v'⟩ := e
  obtain ⟨a', ha'⟩ := mem_entries.mp he
  simp only [put] at h
  split at h
  · rename_i d hd
    obtain rfl := Option.some.inj h
    simp only [LRUCache.put] at hd
    split at hd
    · rename_i a ha
      obtain ⟨n, hn, rfl⟩ := Option.map_eq_some_iff.mp hd
      obtain ⟨w, hw, hm⟩ := c.wellFormed.node_eq (LRUCache.mem_of_lookup ha)
      obtain rfl : _ = n := Option.some.inj (hw.symm.trans hn)
      rcases List.mem_cons.mp ha' with heq | hmem
      · obtain ⟨-, rfl, rfl⟩ := Node.mk.inj heq
        exact .inl rfl
      · obtain ⟨hmem, hne⟩ := LRUCache.mem_removeNode.mp hmem
        refine .inr ⟨mem_entries.mpr ⟨a', hmem⟩, ?_⟩
        intro hk
        have hsame := List.inj_on_of_nodup_map c.wellFormed.keys hmem hm hk
        exact hne (Node.mk.inj hsame).1
    · rename_i hk
      obtain ⟨d', hd', rfl⟩ := Option.map_eq_some_iff.mp hd
      obtain ⟨hw, -, -, hsub, hmap⟩ := LRUCache.evict_wellFormed c.wellFormed hd'
      rcases List.mem_cons.mp ha' with heq | hmem
      · obtain ⟨-, rfl, rfl⟩ := Node.mk.inj heq
        exact .inl rfl
      · refine .inr ⟨mem_entries.mpr ⟨a', hsub _ hmem⟩, ?_⟩
        rintro rfl
        refine LRUCache.not_mem_of_lookup hk a' ?_
        exact (c.wellFormed.designates _ _).mpr ⟨_, hsub _ hmem⟩
  · cases h

theorem mem_invalidateIf (c : Cache K V) (p : K → Bool) (e : K × V) :
    e ∈ (c.invalidateIf p).1.entries ↔ e ∈ c.entries ∧ p e.1 = false := by
  obtain ⟨k, v⟩ := e
  simp only [mem_entries, LRUCache.mem_invalidateIf c.wellFormed (raw_invalidateIf c p)]
  constructor
  · rintro ⟨a, ha, hp⟩
    exact ⟨⟨a, ha⟩, hp⟩
  · rintro ⟨⟨a, ha⟩, hp⟩
    exact ⟨a, ha, hp⟩

end Cache
end IceLog
