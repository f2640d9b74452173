import IceLog.Properties.Serializability

/-! Servers that are killed at arbitrary moments and started again: what has been acknowledged is
kept, and what was under way has happened as a whole or not at all. -/
namespace IceLog

open Interleaved Serial

variable {pg : Postgres} {policy : Policy} {db : Db}

/-- Servers that run one after the other over one database, which is empty at first: where each of
them is started, and where it is killed. What it has not committed is lost. -/
inductive Lifetimes (pg : Postgres) (policy : Policy) : List (ServerConfig × ServerConfig) → Db → Prop
  | nil : Lifetimes pg policy [] .empty
  | snoc {lives : List (ServerConfig × ServerConfig)} {db : Db} {s : Server} {c : ServerConfig} :
      Lifetimes pg policy lives db → Started db s → Run (server pg policy) (.initial s) c →
      Lifetimes pg policy (lives ++ [(.initial s, c)]) c.state.db

variable {lives : List (ServerConfig × ServerConfig)}

/-- Each of the servers starts in a state that can be reached, with what the one before it left. -/
theorem Lifetimes.reachable (h : Lifetimes pg policy lives db) {s : Server} (hs : Started db s) :
    Reachable pg policy (.initial s) := by
  induction h generalizing s with
  | nil => exact .start hs
  | snoc _ hs' hr ih => exact .restart ((ih hs').run hr) hs

/-- What is stored after any number of servers has come about by the requests that have taken
effect in them, one after the other: those of each server in an order that has all that it has
acknowledged. -/
theorem mutations_survive (hc : policy.Clean) (hcm : policy.CarriesOut)
    (h : Lifetimes pg policy lives db) : ∃ Ls : List (List ServerPoint),
      List.Forall₂ (fun life L => Serializes pg policy life.1 life.2 L) lives Ls ∧
        Serially (Request.Does pg policy.Steady) Db.empty.catalog Ls.flatten db.catalog := by
  induction h with
  | nil => exact ⟨[], .nil, .nil⟩
  | @snoc lives db s c h hs hr ih =>
    obtain ⟨Ls, hLs, hserial⟩ := ih
    obtain ⟨L, hL⟩ := (h.reachable hs).serializes hc hcm hr
    -- the server starts from what the last one left
    have hstart : (Config.initial s : ServerConfig).state.db.catalog = db.catalog := by
      show s.db.catalog = _
      rw [hs.db]
    have hlife := hL.serial
    rw [hstart] at hlife
    refine ⟨Ls ++ [L], List.rel_append hLs (.cons hL .nil), ?_⟩
    rw [List.flatten_append, List.flatten_singleton]
    exact hserial.append hlife

/-- A server is killed when a commit has stored its snapshot, but not committed it; the next server
gives out the number after the one that is lost. -/
theorem mutations_survive_killed : ∃ (c c' : ServerConfig) (L L' : List ServerPoint),
    (c.thread 1).map Thread.request = some appendFile ∧ c.reply 1 = none ∧
      c.state.db.snapshots.next = 2 ∧ c.state.db.snapshots.row 1 = none ∧
      Serially (Request.Does .plain Policy.flawless.Steady) Db.empty.catalog (L ++ L')
        c'.state.db.catalog ∧
      (∃ p ∈ L, p.thread = 0 ∧ p.request = .createTable "t" "\x7b\x7d" "" []) ∧
      ∃ p ∈ L', p.request = appendFile ∧ p.told = 2 := by
  let sys := server .plain .flawless
  let create : Request := .createTable "t" "\x7b\x7d" "" []
  let second (c : ServerConfig) : Option ServerConfig :=
    sys.moves (.initial (freshOver c.state.db)) (serve 0 appendFile 13)
  let committed (c' : ServerConfig) : Bool :=
    decide (c'.reply 0 = some (appendFile, .snapshot ⟨true, 2, ""⟩))
  obtain ⟨c, hr, hp⟩ := sys.run_of_check (c := .initial freshServer)
    (serve 0 create 5 ++ serve 1 appendFile 9)
    (p := fun c => decide (c.reply 0 = some (create, .operation ⟨true, ""⟩) ∧
      (c.thread 1).map Thread.request = some appendFile ∧ c.reply 1 = none ∧
        c.state.db.snapshots.next = 2 ∧ (c.state.db.snapshots.row 1).isNone) &&
      (second c).any committed) (by decide +kernel)
  simp only [committed, Bool.and_eq_true, decide_eq_true_eq, Option.any_eq_true] at hp
  obtain ⟨⟨h₀, h₁, hnone, hnext, hrow⟩, c', hc', h₀'⟩ := hp
  have hlives : Lifetimes .plain .flawless [(.initial freshServer, c),
      (.initial (freshOver c.state.db), c')] c'.state.db :=
    .snoc (.snoc .nil (started_fresh _) hr) (started_fresh _) (System.run_of_moves hc')
  obtain ⟨Ls, hLs, hserial⟩ :=
    mutations_survive Policy.flawless_clean Policy.flawless_carriesOut hlives
  obtain _ | ⟨hL, _ | ⟨hL', ⟨⟩⟩⟩ := hLs
  obtain ⟨p, hp, hpi, hpq, -⟩ := hL.acknowledged 0 create _ rfl (Config.returned_iff.mpr h₀) rfl
    (.inr rfl)
  obtain ⟨p', hp', -, hpq', -, htold⟩ := hL'.acknowledged 0 appendFile _ rfl
    (Config.returned_iff.mpr h₀') rfl (.inl (.commit rfl))
  rw [List.flatten_cons, List.flatten_singleton] at hserial
  exact ⟨c, c', _, _, h₁, hnone, hnext, Option.isNone_iff_eq_none.mp hrow, hserial,
    ⟨p, hp, hpi, hpq⟩, p', hp', hpq', (htold _ rfl).symm⟩

end IceLog
