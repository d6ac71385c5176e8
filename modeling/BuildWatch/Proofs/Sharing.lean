import BuildWatch.Proofs.Effect
import BuildWatch.Proofs.Sample
import Mathlib.Data.List.Induction
import Mathlib.Data.List.Infix
import Mathlib.Logic.Function.Basic

namespace BuildWatch

inductive Party where
  | driven (p : Publisher)
  | serving (v : Service)

/-- One step of a party: an operation of the host, or an event of the service. The host can give its
publisher to a service, and gets it back when the service has ended. -/
inductive Deed where
  | operate (op : Operation)
  | serve
  | handle (e : Service.Event)
  | giveBack

namespace Party

def published : Party → List Path
  | .driven p => p.published
  | .serving v => v.publisher.published

/-- A deed for which the publisher is in the wrong hands comes to nothing. -/
def act : Party → Deed → Party × List Edit
  | .driven p, .operate op => (.driven (p.operate op).1, (p.operate op).2.edits)
  | .driven p, .serve => (.serving (.ofPublisher p), [])
  | .serving v, .handle e => (.serving (v.step e).1, (v.step e).2.edits)
  | .serving v, .giveBack => (if v.hasEnded then .driven v.publisher else .serving v, [])
  | a, _ => (a, [])

theorem effect_act (a : Party) (d : Deed) :
    Effect a.published (a.act d).2 (a.act d).1.published := by
  cases a with
  | driven p =>
    cases d with
    | operate op => exact p.effect_operate op
    | serve | handle | giveBack => exact .keeps
  | serving v =>
    cases d with
    | handle e => exact v.effect_step e
    | operate | serve => exact .keeps
    | giveBack =>
      rw [act]
      split <;> exact .keeps

end Party

structure Shared (ι : Type) where
  party : ι → Party
  store : Store

namespace Shared

variable {ι : Type} [DecidableEq ι]

def act (x : Shared ι) (move : ι × Deed) : Shared ι :=
  let (a, edits) := (x.party move.1).act move.2
  ⟨Function.update x.party move.1 a, x.store.applyAll edits⟩

def run (x : Shared ι) (moves : List (ι × Deed)) : Shared ι := moves.foldl act x

def own (i : ι) (moves : List (ι × Deed)) : List (ι × Deed) := moves.filter fun move => move.1 = i

def published (x : Shared ι) (i : ι) : List Path := (x.party i).published

/-- No file is published by two parties, however they spell its path. -/
def Apart (x : Shared ι) : Prop :=
  ∀ i j, i ≠ j → ∀ p ∈ x.published i, ∀ q ∈ x.published j, p.components ≠ q.components

variable {x y : Shared ι} {i : ι} {move : ι × Deed}

theorem run_append (x : Shared ι) (moves : List (ι × Deed)) (move : ι × Deed) :
    x.run (moves ++ [move]) = (x.run moves).act move := List.foldl_append

theorem sorted_run (hx : x.store.files.Sorted) (moves : List (ι × Deed)) :
    (x.run moves).store.files.Sorted := by
  induction moves generalizing x with
  | nil => exact hx
  | cons move moves ih => exact ih (Store.sorted_applyAll hx _)

theorem party_act_of_ne (h : move.1 ≠ i) : (x.act move).party i = x.party i :=
  Function.update_of_ne (Ne.symm h) _ _

theorem party_act_self (x : Shared ι) (move : ι × Deed) :
    (x.act move).party move.1 = ((x.party move.1).act move.2).1 := Function.update_self ..

theorem effect_act (x : Shared ι) (move : ι × Deed) :
    Effect (x.published move.1) ((x.party move.1).act move.2).2
      ((x.act move).published move.1) := by
  rw [published, published, party_act_self]
  exact (x.party move.1).effect_act move.2

theorem find?_act (h : move.1 ≠ i) (hx : x.Apart) (hy : (x.act move).Apart) :
    ∀ file ∈ x.published i, (x.act move).store.files.find? file = x.store.files.find? file := by
  intro file hfile
  have hfile' : file ∈ (x.act move).published i := by
    rwa [published, party_act_of_ne h]
  exact (x.effect_act move).find?_eq_of_apart (fun p hp => hx move.1 i h p hp file hfile)
    (fun p hp => hy move.1 i h p hp file hfile') x.store

/-- A party stands in `y` where it stands in `x`, and the two show the same for its files. -/
structure Agree (i : ι) (x y : Shared ι) : Prop where
  party : x.party i = y.party i
  shown : ∀ file ∈ x.published i, x.store.get? file = y.store.get? file

theorem agree_act_self (hx : x.store.files.Sorted) (hy : y.store.files.Sorted)
    (h : Agree i x y) (d : Deed) : Agree i (x.act (i, d)) (y.act (i, d)) := by
  have hd : ((x.party i).act d) = (y.party i).act d := by rw [h.party]
  refine ⟨?_, fun file hfile => ?_⟩
  · exact (x.party_act_self (i, d)).trans
      ((congrArg Prod.fst hd).trans (y.party_act_self (i, d)).symm)
  · have hcongr := (x.effect_act (i, d)).get?_congr hx hy h.shown file hfile
    refine hcongr.trans ?_
    change (y.store.applyAll ((x.party i).act d).2).get? file = _
    rw [hd]
    rfl

theorem agree_act_of_ne (h : Agree i x y) (hm : move.1 ≠ i) (hx : x.Apart)
    (hx' : (x.act move).Apart) : Agree i (x.act move) y := by
  refine ⟨(party_act_of_ne hm).trans h.party, fun file hfile => ?_⟩
  rw [published, party_act_of_ne hm] at hfile
  have hkept := congrArg (Option.map (·.2)) (find?_act hm hx hx' file hfile)
  exact hkept.trans (h.shown file hfile)

theorem agree_run (hx : x.store.files.Sorted) {moves : List (ι × Deed)}
    (hapart : ∀ front, front <+: moves → (x.run front).Apart) (i : ι) :
    Agree i (x.run moves) (x.run (own i moves)) := by
  induction moves using List.reverseRecOn with
  | nil => exact ⟨rfl, fun _ _ => rfl⟩
  | append_singleton moves move ih =>
    have hi := ih fun front hf => hapart front (hf.trans (List.prefix_append _ _))
    obtain ⟨j, d⟩ := move
    rw [own, List.filter_append, run_append]
    by_cases hj : j = i
    -- a move of its own is made on both sides, a move of another only where all moves are made
    · subst hj
      rw [List.filter_cons_of_pos (by simp), List.filter_nil, run_append]
      exact agree_act_self (sorted_run hx _) (sorted_run hx _) hi d
    · rw [List.filter_cons_of_neg (by simp [hj]), List.filter_nil, List.append_nil]
      exact agree_act_of_ne hi hj (hapart _ (List.prefix_append _ _))
        (run_append x moves (j, d) ▸ hapart _ (List.prefix_refl _))

theorem find?_run {moves : List (ι × Deed)} {q : Path}
    (h : ∀ front, front <+: moves → ∀ i, ∀ file ∈ (x.run front).published i,
      file.components ≠ q.components) :
    (x.run moves).store.files.find? q = x.store.files.find? q := by
  induction moves using List.reverseRecOn with
  | nil => rfl
  | append_singleton moves move ih =>
    have hi := ih fun front hf => h front (hf.trans (List.prefix_append _ _))
    have hafter := h _ (List.prefix_refl _) move.1
    rw [run_append] at hafter ⊢
    refine Eq.trans ?_ hi
    exact ((x.run moves).effect_act move).find?_eq_of_apart
      (h moves (List.prefix_append _ _) move.1) hafter (x.run moves).store

/-- No deed asks for everything to be cleared, and a file keeps its entry in the store through all
deeds of a party by which it is neither published before nor set. So with files that are apart a
party never touches the entries of another, and after any moves in any order each party stands
where its own moves alone would have brought it, with the same diagnostics in the store for its
files. The files that nobody publishes are left alone. -/
theorem kept_from_others :
    (∀ (a : Party) (d : Deed), Edit.clear ∉ (a.act d).2 ∧ ∀ (store : Store) (q : Path),
      (∀ file ∈ a.published, file.components ≠ q.components) →
      (∀ file ds, Edit.set file ds ∈ (a.act d).2 → file.components ≠ q.components) →
      (store.applyAll (a.act d).2).files.find? q = store.files.find? q) ∧
    (∀ (x : Shared ι) (i j : ι) (d : Deed), j ≠ i → x.Apart → (x.act (j, d)).Apart →
      ∀ file ∈ x.published i,
        (x.act (j, d)).store.files.find? file = x.store.files.find? file) ∧
    ∀ (x : Shared ι) (moves : List (ι × Deed)), x.store.files.Sorted →
      (∀ front, front <+: moves → (x.run front).Apart) →
      (∀ i, (x.run moves).party i = (x.run (own i moves)).party i ∧
        ∀ file ∈ (x.run moves).published i,
          (x.run moves).store.get? file = (x.run (own i moves)).store.get? file) ∧
      ∀ q, (∀ front, front <+: moves → ∀ i, ∀ file ∈ (x.run front).published i,
          file.components ≠ q.components) →
        (x.run moves).store.files.find? q = x.store.files.find? q := by
  refine ⟨fun a d => ⟨(a.effect_act d).clear_not_mem, fun store q hbefore hset => ?_⟩,
    fun x i j d hji hx hy => find?_act hji hx hy, fun x moves hx hapart => ⟨fun i => ?_, ?_⟩⟩
  · exact (a.effect_act d).find?_eq hbefore hset store
  · have h := agree_run hx hapart i
    exact ⟨h.party, h.shown⟩
  · exact fun q hq => find?_run hq

def pair : Shared Bool where
  party
    | true => .driven (.new { Sample.settings with scope := .all })
    | false => .serving (.ofPublisher (.new { Sample.settings with scope := .all }))
  store := ⟨⟨[(⟨"S"⟩, [⟨"s", .point ⟨0, 0⟩⟩])]⟩⟩

def exchange : List (Bool × Deed) :=
  [(true, .operate (.run (Sample.machine Sample.failing) Sample.trigger)),
    (false, .handle (.send (.trigger Sample.trigger))),
    (false, .handle (.next (Sample.telling "[[\"B\",2,0]]"))),
    (false, .handle (.settle ⟨1⟩)), (false, .handle .collect),
    (true, .operate (.launch (Sample.machine Sample.hanging) Sample.trigger)),
    (true, .operate .cancel)]

theorem kept_from_others_of_pair :
    let y := pair.run exchange
    (y.published true).length = 0 ∧ (⟨"B"⟩ : Path) ∈ y.published false ∧
      y.store.get? ⟨"B"⟩ = (pair.run (own false exchange)).store.get? ⟨"B"⟩ ∧
      y.store.files.find? ⟨"S"⟩ = pair.store.files.find? ⟨"S"⟩ := by
  have hsorted : pair.store.files.Sorted := List.pairwise_singleton _ _
  have hapart : ∀ front ∈ exchange.inits, (pair.run front).Apart := by
    unfold Apart
    decide +kernel
  have hfree : ∀ front ∈ exchange.inits, ∀ i, ∀ file ∈ (pair.run front).published i,
      file.components ≠ (Path.mk "S").components := by decide +kernel
  obtain ⟨-, -, hrun⟩ := kept_from_others (ι := Bool)
  obtain ⟨hown, hother⟩ := hrun pair exchange hsorted
    fun front hf => hapart front ((List.mem_inits _ _).mpr hf)
  have hb : (⟨"B"⟩ : Path) ∈ (pair.run exchange).published false := List.mem_singleton.mpr rfl
  exact ⟨rfl, hb, (hown false).2 _ hb,
    hother _ fun front hf => hfree front ((List.mem_inits _ _).mpr hf)⟩

end Shared

end BuildWatch
