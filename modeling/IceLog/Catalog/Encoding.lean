import Mathlib.Algebra.BigOperators.Group.List.Basic
import Mathlib.Data.List.Perm.Subperm
import IceLog.Data.Association
import IceLog.Data.Json
import IceLog.Server.MetadataServer

/-! The properties of a table as the JSON text that `CreateTable` builds. -/
namespace IceLog

open Association Json

variable {properties : List (String × String)}

theorem toList_entries (m : String × String) (members : List (String × String)) :
    (",".intercalate ((m :: members).map fun (k, v) => "\"" ++ k ++ "\":\"" ++ v ++ "\"")).toList =
      writeMember m ++ writeMore members := by
  induction members generalizing m with
  | nil => simp [writeMember, writeMore]
  | cons m' members ih =>
    have hmore := ih m'
    simp only [List.map_cons] at hmore ⊢
    rw [String.intercalate_cons_cons, String.toList_append, hmore]
    simp [writeMember, writeMore]

/-- The text is written member by member, without escapes. -/
theorem toList_propertiesJson (properties : List (String × String)) :
    (propertiesJson properties).toList = writeObject properties := by
  cases properties with
  | nil => rfl
  | cons m members =>
    rw [propertiesJson, if_neg (List.cons_ne_nil m members)]
    simp only [String.toList_append, toList_entries, writeObject]
    rfl

/-- The text stands for an object with these keys and these strings as their values; of members
with one key the last counts. -/
def Carries (text : String) (properties : List (String × String)) : Prop :=
  ∃ members, Denotes text (.object members) ∧
    ∀ k, members.reverse.lookup k = (properties.lookup k).map Json.string

theorem keys_ofStrings (properties : List (String × String)) :
    (ofStrings properties).map Prod.fst = properties.map Prod.fst := by
  simp [ofStrings, Function.comp_def]

theorem carries_of_plain (hkeys : (properties.map Prod.fst).Nodup)
    (hm : ∀ m ∈ properties, PlainMember (m.1, string m.2)) :
    Carries (propertiesJson properties) properties := by
  refine ⟨ofStrings properties, ?_, fun k => ?_⟩
  · have h := denotes_writeObject hm
    rwa [← toList_propertiesJson, String.ofList_toList] at h
  · have hnodup : ((ofStrings properties).reverse.map Prod.fst).Nodup := by
      rw [List.map_reverse, keys_ofStrings, List.nodup_reverse]
      exact hkeys
    cases hk : properties.lookup k with
    | some v =>
      refine lookup_of_mem hnodup (List.mem_reverse.mpr ?_)
      exact List.mem_map.mpr ⟨(k, v), mem_of_lookup_eq hk, rfl⟩
    | none =>
      refine Option.not_isSome_iff_eq_none.mp fun hs => ?_
      rw [lookup_isSome_iff, List.map_reverse, keys_ofStrings, List.mem_reverse,
        ← lookup_isSome_iff, hk] at hs
      cases hs

/-- The members of an object that carries the properties leave no room for an escape. -/
theorem plain_of_carries (hkeys : (properties.map Prod.fst).Nodup)
    (h : Carries (propertiesJson properties) properties) :
    ∀ m ∈ properties, PlainMember (m.1, string m.2) := by
  rcases eq_or_ne properties [] with rfl | hne
  · simp
  obtain ⟨members, hd, hlook⟩ := h
  obtain ⟨hle, hplain⟩ := hd.object_length
  rw [toList_propertiesJson, length_writeObject hne] at hle hplain
  have hsub : ofStrings properties ⊆ members := by
    intro e he
    obtain ⟨⟨k, v⟩, hm, rfl⟩ := List.mem_map.mp he
    have hk := hlook k
    rw [lookup_of_mem hkeys hm] at hk
    exact List.mem_reverse.mp (mem_of_lookup_eq hk)
  have hnodup : (ofStrings properties).Nodup :=
    .of_map Prod.fst (by rw [keys_ofStrings]; exact hkeys)
  obtain ⟨l, hl, hls⟩ := hnodup.subperm hsub
  obtain ⟨rest, hrest⟩ := hls.exists_perm_append
  have hperm := hrest.trans (hl.append_right rest)
  have hsum := (hperm.map memberSize).sum_eq
  have hlen := hperm.length_eq
  rw [List.map_append, List.sum_append] at hsum
  rw [List.length_append] at hlen
  have hnil : rest = [] := List.length_eq_zero_iff.mp (by omega)
  subst hnil
  simp only [List.map_nil, List.sum_nil, List.length_nil] at hsum hlen
  intro m hm
  exact hplain (by omega) _ (hsub (List.mem_map_of_mem hm))

/-- A map of properties, in whatever order, is carried by its text if no key and no value has a
character that JSON writes with an escape. -/
theorem properties_carried_iff (hkeys : (properties.map Prod.fst).Nodup) :
    Carries (propertiesJson properties) properties ↔
      ∀ m ∈ properties, (∀ c ∈ m.1.toList, Plain c) ∧ ∀ c ∈ m.2.toList, Plain c :=
  ⟨plain_of_carries hkeys, carries_of_plain hkeys⟩

theorem properties_carried_iff_of_two :
    Carries (propertiesJson [("a", "1"), ("b", "x\"y")]) [("a", "1"), ("b", "x\"y")] ↔
      ∀ m ∈ [("a", "1"), ("b", "x\"y")],
        (∀ c ∈ m.1.toList, Plain c) ∧ ∀ c ∈ m.2.toList, Plain c :=
  properties_carried_iff (by decide)

/-- A value with a quotation mark. -/
theorem properties_not_carried : ¬ ∀ properties : List (String × String),
    (properties.map Prod.fst).Nodup → Carries (propertiesJson properties) properties := by
  intro h
  have hp := plain_of_carries (by decide) (h [("a", "\"")] (by decide)) ("a", "\"") (by simp)
  exact absurd (hp.2 '"' (by simp)) (by decide)

end IceLog
