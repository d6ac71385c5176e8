import BuildWatch.Proofs.Driving
import BuildWatch.Proofs.Sample
import BuildWatch.Proofs.Service

namespace BuildWatch

namespace Publisher

/-- The publishers that a host can come by: a new one, one that it drove itself, and one that a
service gave back at its end. -/
inductive Reachable (s : Settings) (isPrimary : SourceTest) : Publisher → Prop where
  | new : Reachable s isPrimary ((Publisher.new s).withSourceTest isPrimary)
  | operate {p : Publisher} (op : Operation) :
    Reachable s isPrimary p → Reachable s isPrimary (p.operate op).1
  | serve {p : Publisher} (es : List Service.Event) :
    Reachable s isPrimary p → ((Service.ofPublisher p).run es).1.hasEnded = true →
      Reachable s isPrimary ((Service.ofPublisher p).run es).1.publisher

variable {s : Settings} {isPrimary : SourceTest} {p : Publisher}

theorem tracks_of_reachable (hp : Reachable s isPrimary p) :
    ∃ store h, Tracks s isPrimary store p h := by
  induction hp with
  | new => exact ⟨Store.empty, [], follows_new s isPrimary, displays_new s isPrimary⟩
  | operate op _ ih =>
    obtain ⟨store, h, ht⟩ := ih
    exact ⟨_, _, tracks_operate ht op⟩
  | serve es _ _ ih =>
    obtain ⟨store, h, ht⟩ := ih
    have hv := Service.follows_ofPublisher ht.follows
    exact ⟨_, _, (Service.follows_run hv es).publisher, Service.displays_run hv ht.displays es⟩

theorem phase_of_inStep (hp : p.InStep) : p.phase ≠ .starting := by
  rcases hp with h | ⟨run, b, h⟩
  · rw [h.phase]
    exact nofun
  · rw [h.phase]
    exact nofun

/-- A publisher is in step whenever its host can look at it, and all the while that a service has
it. The pending run of a service is the one in flight. Unless the publisher came with a run in
flight and no turn was taken since, a run is pending exactly as long as it is in flight. -/
theorem inStep_of_reachable (hp : Reachable s isPrimary p) :
    p.phase ≠ .starting ∧ p.InStep ∧ ∀ es : List Service.Event,
      let v := ((Service.ofPublisher p).run es).1
      v.publisher.phase ≠ .starting ∧ v.publisher.InStep ∧
        (∀ id, v.pending = some id → v.publisher.awaited.map AwaitedRun.id = some id) ∧
        (p.awaited = none ∨ (Service.ofPublisher p).turns es ≠ [] →
          v.pending = v.publisher.awaited.map AwaitedRun.id) := by
  obtain ⟨_, h, ht⟩ := tracks_of_reachable hp
  have hstep := inStep_of_flies ht.follows.flies
  refine ⟨phase_of_inStep hstep, hstep, fun es => ?_⟩
  have h0 := Service.follows_ofPublisher ht.follows
  have hv := Service.follows_run h0 es
  have hs := inStep_of_flies hv.publisher.flies
  refine ⟨phase_of_inStep hs, hs, hv.pending, ?_⟩
  rintro (hn | hτs)
  · exact Service.paired_run h0 (Service.paired_of_none rfl hn) es
  · exact Service.paired_of_turns h0 hτs

theorem inStep_of_reachable_launched :
    let p := (((new Sample.settings).withSourceTest fun _ => true).operate
      (.launch (Sample.machine Sample.hanging) Sample.trigger)).1
    p.phase = .awaitingOutput ⟨1⟩ ∧ p.InStep ∧
      ∀ es, ((Service.ofPublisher p).run es).1.publisher.InStep := by
  intro p
  have hnew : Reachable Sample.settings (fun _ => true) _ := .new
  obtain ⟨-, hp, hv⟩ := inStep_of_reachable
    (hnew.operate (.launch (Sample.machine Sample.hanging) Sample.trigger))
  exact ⟨rfl, hp, fun es => (hv es).2.1⟩

end Publisher

end BuildWatch
