import Mathlib.Data.List.Induction
import TcpStack.Segmentation

/-!
# The application over a whole connection

The event loop asks the application after every segment, also after it has
decided to close: then the buffer is gone and the next bytes meet a new
application. What is written before the first close is the answer to the bytes
taken so far, and the buffer is their tail that no request has used.
-/
namespace TcpStack.Http

/-- The buffer and the bytes written over the chunks of a connection. A close
drops the buffer. -/
def attend (hbuf : Option Bytes) : List Bytes → Option Bytes × Bytes
  | [] => (hbuf, [])
  | chunk :: chunks =>
      let r := onReceived hbuf chunk
      let more := attend (if r.closing then none else r.hbuf) chunks
      (more.1, r.writes.flatten ++ more.2)

theorem attend_append (hbuf : Option Bytes) (xs ys : List Bytes) : attend hbuf (xs ++ ys) =
    ((attend (attend hbuf xs).1 ys).1, (attend hbuf xs).2 ++ (attend (attend hbuf xs).1 ys).2) := by
  induction xs generalizing hbuf with
  | nil => rfl
  | cons chunk xs ih => simp only [List.cons_append, attend, ih, List.append_assoc]

theorem attend_snoc (hbuf : Option Bytes) (chunks : List Bytes) (chunk : Bytes) :
    attend hbuf (chunks ++ [chunk]) =
      let r := onReceived (attend hbuf chunks).1 chunk
      (if r.closing then none else r.hbuf, (attend hbuf chunks).2 ++ r.writes.flatten) := by
  simp only [attend_append, attend, List.append_nil]

theorem attend_open {hbuf : Option Bytes} {chunks : List Bytes} (h : (answer hbuf chunks).closing = false) :
    (attend hbuf chunks).2 = (answer hbuf chunks).written := by
  induction chunks generalizing hbuf with
  | nil => rfl
  | cons chunk chunks ih =>
      rw [answer] at h ⊢
      rw [attend]
      dsimp only at h ⊢
      split_ifs at h ⊢
      rw [ih h]

/-- After a close nothing changes the answer; before it a chunk adds its own. -/
theorem answer_snoc (hbuf : Option Bytes) (chunks : List Bytes) (chunk : Bytes) :
    ((answer hbuf chunks).closing = true → answer hbuf (chunks ++ [chunk]) = answer hbuf chunks) ∧
      ((answer hbuf chunks).closing = false →
        (answer hbuf (chunks ++ [chunk])).closing = (onReceived (attend hbuf chunks).1 chunk).closing ∧
        (answer hbuf (chunks ++ [chunk])).written =
          (answer hbuf chunks).written ++ (onReceived (attend hbuf chunks).1 chunk).writes.flatten) := by
  induction chunks generalizing hbuf with
  | nil =>
      refine ⟨fun h => absurd h Bool.false_ne_true, fun _ => ?_⟩
      simp only [List.nil_append, answer, attend]
      split_ifs with hc
      · exact ⟨hc.symm, rfl⟩
      · exact ⟨(Bool.not_eq_true _ ▸ hc).symm, List.append_nil _⟩
  | cons first chunks ih =>
      simp only [List.cons_append, answer, attend]
      by_cases hc : (onReceived hbuf first).closing = true
      · simp only [hc, if_true]
        exact ⟨fun _ => trivial, fun h => absurd h (by decide)⟩
      · simp only [hc, if_false, Bool.false_eq_true]
        obtain ⟨hshut, hopen⟩ := ih (onReceived hbuf first).hbuf
        refine ⟨fun h => by rw [hshut h], fun h => ⟨(hopen h).1, ?_⟩⟩
        rw [(hopen h).2, List.append_assoc]

/-- What is written before the first close, or so far if there was none, comes
first in all that is written. -/
theorem answer_prefix_attend (hbuf : Option Bytes) (chunks : List Bytes) :
    (answer hbuf chunks).written <+: (attend hbuf chunks).2 := by
  induction chunks generalizing hbuf with
  | nil => exact List.prefix_rfl
  | cons chunk chunks ih =>
      rw [answer, attend]
      dsimp only
      split_ifs with hc
      · exact List.prefix_append _ _
      · exact (List.prefix_append_right_inj _).mpr (ih _)

/-- What a buffer holds: bytes at the end of those received, without a complete head. -/
def Pending (received : Bytes) (hbuf : Option Bytes) : Prop :=
  ∀ buf ∈ hbuf, buf <:+ received ∧ requestHeadLen buf = none

theorem serveAll_rest_suffix (buf : Bytes) : (serveAll buf).rest <:+ buf := by
  induction buf using heads_induction with
  | done buf hhead =>
      exact ⟨[], congrArg Served.rest (serveAll_none hhead)⟩
  | next buf headLen hhead ih =>
      have hdrop : buf.drop headLen <:+ buf := List.drop_suffix _ _
      rw [serveAll_some hhead]
      cases parseRequest (buf.take headLen) with
      | none => exact hdrop
      | some req =>
          dsimp only
          split_ifs
          · exact ih.trans hdrop
          · exact hdrop

theorem Pending.onReceived {received : Bytes} {hbuf : Option Bytes} (h : Pending received hbuf) {chunk : Bytes}
    (hne : chunk ≠ []) : Pending (received ++ chunk)
      (if (onReceived hbuf chunk).closing then none else (onReceived hbuf chunk).hbuf) := by
  intro buf hbuf'
  split_ifs at hbuf' with hc
  · cases hbuf'
  · by_cases hhttp : hbuf.isSome = true ∨ looksLikeRequest chunk = true
    · rw [onReceived_buffered hne hhttp] at hc hbuf'
      obtain rfl := Option.some.inj hbuf'
      have hkept : hbuf.getD [] <:+ received := by
        cases hbuf with
        | none => exact List.nil_suffix
        | some old => exact (h old rfl).1
      refine ⟨(serveAll_rest_suffix _).trans ?_, serveAll_rest _ (Bool.not_eq_true _ ▸ hc)⟩
      obtain ⟨front, hfront⟩ := hkept
      exact ⟨front, by rw [← List.append_assoc, hfront]⟩
    · obtain ⟨hnone, hlooks⟩ := not_or.mp hhttp
      obtain rfl : hbuf = none := Option.not_isSome_iff_eq_none.mp hnone
      rw [onReceived_echoed hne hlooks] at hbuf'
      cases hbuf'

theorem attend_pending {chunks : List Bytes} (hne : ∀ c ∈ chunks, c ≠ []) :
    Pending chunks.flatten (attend none chunks).1 := by
  induction chunks using List.reverseRecOn with
  | nil => exact fun _ h => absurd h (Option.not_mem_none _)
  | append_singleton chunks chunk ih =>
      rw [attend_snoc, List.flatten_append, List.flatten_singleton]
      refine Pending.onReceived (ih fun c hc => hne c (List.mem_append_left _ hc)) (hne chunk ?_)
      exact List.mem_append_right _ (List.mem_singleton_self _)

/-- What an answer says: the bytes before the first chunk that looks like a
request, and the responses to the successive heads from there on. -/
theorem answer_shape {chunks : List Bytes} (hne : ∀ c ∈ chunks, c ≠ []) :
    (answer none chunks).written = chunks.flatten.take (httpFrom chunks) ++
      (((answer none chunks).heads.filterMap parseRequest).map response).flatten ∧
      Successive (chunks.flatten.drop (httpFrom chunks)) (answer none chunks).heads (answer none chunks).closing := by
  have hserve := serveAll_successive (chunks.flatten.drop (httpFrom chunks))
  rw [answer_eq hne]
  refine ⟨?_, hserve.1⟩
  rw [answerAll, hserve.2]

end TcpStack.Http
