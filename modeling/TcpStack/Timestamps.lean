import TcpStack.Emission
import TcpStack.SegmentSize

/-!
# Timestamps and retransmission

The round-trip sample of an acknowledgement is the time since the echoed
timestamp, which is right when every copy of a segment carries the time it was
sent. A copy from the queue carries the time of the first one.
-/
namespace TcpStack
open Tcp

variable {F : Type} [F64 F]

namespace Connection

/-- The segment carries the time `sent`, so that an acknowledgement that echoes
its timestamp gives a sample of the time since then. -/
def Dated (F : Type) [F64 F] (sent : U64) (s : Segment) : Prop :=
  ∃ tsval tsecr, s.opts.timestamps = some (tsval, tsecr) ∧ tsval = sent.setWidth 32 ∧
    ∀ (c : Connection F) (echo : TcpOptions) (timed : Option U64) (now : U64), c.tsEnabled = true →
      c.tsVal = now.setWidth 32 → echo.timestamps.map Prod.snd = some tsval →
      c.rttSample echo timed = some (((now - sent).setWidth 32).setWidth 64)

theorem dated_iff {sent : U64} {s : Segment} :
    Dated F sent s ↔ s.opts.timestamps.map Prod.fst = some (sent.setWidth 32) := by
  constructor
  · rintro ⟨tsval, tsecr, hts, rfl, -⟩
    rw [hts]
    rfl
  · intro h
    obtain ⟨⟨tsval, tsecr⟩, hts, hval⟩ := Option.map_eq_some_iff.mp h
    refine ⟨tsval, tsecr, hts, hval, fun c echo timed now hen hnow hecho => ?_⟩
    obtain ⟨⟨val, ecr⟩, hopt, hecr⟩ := Option.map_eq_some_iff.mp hecho
    replace hecr : ecr = sent.setWidth 32 := hecr.trans hval
    have hlow : now.setWidth 32 - sent.setWidth 32 = (now - sent).setWidth 32 := by
      apply BitVec.eq_of_toNat_eq
      simp only [BitVec.toNat_sub, BitVec.toNat_setWidth]
      omega
    rw [rttSample, if_pos hen, hopt, hnow, hecr, ← hlow]
    rfl

end Connection

namespace Host
open Connection

theorem tsEnabled_of_resent {h : Host F} {x : Call} {u : Unacked} (hu : h.conn.Resent x u) :
    (h.call x).conn.tsEnabled = h.conn.tsEnabled := by
  have hterms : (h.call x).conn.terms = h.conn.terms := by
    apply call_terms
    cases x with
    | onSegment seg now rnd =>
        left
        rcases hu.1 with hs | hs <;> simp [hs]
    | _ => exact .inr rfl
  exact congrArg (fun terms => terms.2.2.2.1) hterms

/-- Every copy carries its own send time in a run exactly when no call of the run
resends a segment, other than a SYN, that was built at another time. -/
theorem copies_dated_iff (h : Host F) (calls : List Call) :
    (∀ pre x post now, calls = pre ++ x :: post → x.time = some now → ((h.run pre).call x).conn.tsEnabled = true →
        ∀ p ∈ (h.run pre).packets x, ∀ s, decode p = some s → hasFlag s.th.flags SYN = false → Dated F now s) ↔
      ∀ pre x post now, calls = pre ++ x :: post → x.time = some now → (h.run pre).conn.tsEnabled = true →
        ∀ u, (h.run pre).conn.Resent x u → ∀ s, decode u.packet = some s → hasFlag s.th.flags SYN = false →
          s.opts.timestamps.map Prod.fst = some (now.setWidth 32) := by
  refine forall_congr' fun pre => forall_congr' fun x => forall_congr' fun post => forall_congr' fun now =>
    forall_congr' fun _ => forall_congr' fun htime => ?_
  obtain ⟨more, he, hmore, hback, -⟩ := call_made (h.run pre) x
  rw [packets_eq he]
  constructor
  · intro hdated hen u hu s hd hsyn
    rw [← tsEnabled_of_resent hu] at hen
    exact dated_iff.mp (hdated hen u.packet (hback _ ⟨u, hu, rfl⟩) s hd hsyn)
  · intro hfresh hen p hp s hd hsyn
    rw [dated_iff]
    rcases hmore p hp with ⟨⟨u, hu, rfl⟩, -⟩ | ⟨hmade, now', htime', hval⟩
    · exact hfresh (tsEnabled_of_resent hu ▸ hen) u hu s hd hsyn
    · obtain rfl : now' = now := Option.some.inj (htime'.symm.trans htime)
      obtain ⟨s', hd', -, -, hstamp⟩ := hmade.reads
      obtain rfl : s' = s := Option.some.inj (hd'.symm.trans hd)
      rw [hstamp, stamp, if_pos hen, hval]
      rfl

/-- After a retransmission timeout the byte leaves again with the time of its
first copy. -/
theorem resent_copy_keeps_old_time :
    let k := stamped.run (stampedCalls [7#8])
    Fresh stamped ∧ (k.call (.onTick 9000#64)).conn.tsEnabled = true ∧ ∃ p ∈ k.packets (.onTick 9000#64), ∃ s,
      decode p = some s ∧ hasFlag s.th.flags SYN = false ∧ s.payload = [7#8] ∧
      s.opts.timestamps = some (2#32, 7#32) ∧ ¬ Dated Rat 9000#64 s := by
  intro k
  refine ⟨stamped_fresh, by decide +kernel, ?_⟩
  have hout : (k.packets (.onTick 9000#64)).map decode =
      [some ⟨⟨4000#16, 80#16, 101#32, 501#32, 32, PSH ||| ACK, 1024#16⟩, [7#8],
      { timestamps := some (2#32, 7#32) }⟩] := by
    decide +kernel
  obtain ⟨p, hp, hd⟩ := List.mem_map.mp (hout ▸ List.mem_singleton_self _)
  refine ⟨p, hp, _, hd, by decide, rfl, rfl, ?_⟩
  rw [dated_iff]
  decide

end Host
end TcpStack
