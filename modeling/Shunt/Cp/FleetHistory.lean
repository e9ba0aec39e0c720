/-
What the calls on a member's record leave behind: each event of the history was said by
a call that was made, and a heartbeat that was granted has its previous incarnations in
the history.
-/

import Shunt.Cp.FleetEvidence

namespace Shunt.Cp

open Library List

def FleetCall.Tells : FleetCall → FleetEvent → Prop
  | .heartbeat hb _, .registered id => id = hb.incarnation
  | .heartbeat hb _, .retired id => ∃ p ∈ hb.previous, p.clean = true ∧ p.id = id
  | .heartbeat hb _, .unclean id => ∃ p ∈ hb.previous, p.endedUnclean = true ∧ p.id = id
  | .retire incarnation uncertain _, .retired id => uncertain = 0 ∧ id = incarnation
  | .retire incarnation uncertain _, .unclean id => uncertain ≠ 0 ∧ id = incarnation
  | .resolve incarnation _ _, .resolved id => id = incarnation
  | _, _ => False

section

variable {proxy : String} {w w' : FleetWorld} {log : List FleetEvent} {e : FleetEvent}
  {hb : Heartbeat} {valid : hb.check = none}

theorem mem_of_notes {kind : Incarnation → Bool} {event : String → FleetEvent}
    {previous : List Incarnation} (noted : e ∈ previous.foldl (noteIf kind event) log) :
    e ∈ log ∨ ∃ p ∈ previous, kind p ∧ e = event p.id := by
  induction previous generalizing log with
  | nil => exact .inl noted
  | cons p rest ih =>
    rcases ih noted with first | ⟨q, mem, is_, eq⟩
    · unfold noteIf at first
      split at first
      · next is_ =>
          rcases mem_cons.mp first with eq | old
          · exact .inr ⟨p, mem_cons_self, is_, eq⟩
          · exact .inl old
      · exact .inl first
    · exact .inr ⟨q, mem_cons_of_mem p mem, is_, eq⟩

theorem noteHeartbeat_tells {rec : MemberRecord} (noted : e ∈ noteHeartbeat hb rec log) :
    e ∈ log ∨ (FleetCall.heartbeat hb valid).Tells e := by
  unfold noteHeartbeat at noted
  rcases mem_of_notes noted with seated | ⟨p, mem, unclean, rfl⟩
  · have told : e ∈ hb.previous.foldl noteClean log ∨ e = .registered hb.incarnation := by
      split at seated
      · exact .inl seated
      · exact (mem_cons.mp seated).symm
    rcases told with clean | rfl
    · rcases mem_of_notes clean with old | ⟨p, mem, is_, rfl⟩
      · exact .inl old
      · exact .inr ⟨p, mem, is_, rfl⟩
    · exact .inr rfl
  · exact .inr ⟨p, mem, unclean, rfl⟩

theorem FleetCall.note_tells {call : FleetCall} {read : Option MemberRecord}
    (noted : e ∈ call.note read log) : e ∈ log ∨ call.Tells e := by
  cases call with
  | heartbeat => exact noteHeartbeat_tells noted
  | retire =>
    unfold FleetCall.note noteRetire at noted
    dsimp only at noted
    rcases mem_cons.mp noted with rfl | old
    · right
      split
      · next none_ => exact ⟨none_, rfl⟩
      · next some_ => exact ⟨some_, rfl⟩
    · exact .inl old
  | requestRetire | forget => exact .inl noted
  | resolve =>
    rcases mem_cons.mp noted with rfl | old
    · exact .inr rfl
    · exact .inl old

theorem FleetStep.log_tells (step : FleetStep proxy w w') : w.log ⊆ w'.log ∧
      ∀ e ∈ w'.log, e ∈ w.log ∨ ∃ i c, w.calls i = some c ∧ c.call.Tells e := by
  cases step with
  | @fast i c hb valid cached runs call =>
    refine ⟨subset_noteHeartbeat, ?_⟩
    intro e mem
    rcases @noteHeartbeat_tells _ e hb valid cached.record mem with old | tells
    · exact .inl old
    · exact .inr ⟨i, c, runs, call ▸ tells⟩
  | @put i tries rev c forgotten read rec runs
  | @remove i tries rev c forgotten ended read runs =>
    refine ⟨FleetCall.subset_note, ?_⟩
    intro e mem
    exact (FleetCall.note_tells mem).imp id fun tells => ⟨i, c, runs, tells⟩
  | @cache i rev c write =>
    cases write with
    | put | remove => exact ⟨List.Subset.refl _, fun e mem => .inl mem⟩
  | _ => exact ⟨List.Subset.refl _, fun e mem => .inl mem⟩

theorem FleetWorld.goes_same {i j : Nat} {c d : FleetRunning} {phase : FleetPhase}
    (runs : w.calls i = some c) (at_ : (w.goes i c phase).calls j = some d) :
    ∃ b, w.calls j = some b ∧ b.call = d.call := by
  rcases update_some at_ with ⟨rfl, rfl⟩ | ⟨-, at_⟩
  · exact ⟨c, runs, rfl⟩
  · exact ⟨d, at_, rfl⟩

theorem FleetStep.same_call (step : FleetStep proxy w w')
    (quiet : ∀ i, w.calls i = none → w'.calls i = none) {i : Nat} {d : FleetRunning}
    (at_ : w'.calls i = some d) : ∃ b, w.calls i = some b ∧ b.call = d.call := by
  cases step with
  | elsewhere | expire | restart => exact ⟨d, at_, rfl⟩
  | @enter j fresh =>
    have none_ := quiet j fresh
    change Function.update w.calls j _ j = none at none_
    rw [Function.update_self] at none_
    cases none_
  | stop runs going | fast runs call phase eq answered | fastLost runs phase diff
  | forgotten runs phase | read runs phase | refuse runs phase now fails
  | ready runs phase now ok | put runs phase eq answered
  | remove runs phase eq silent answered | lose runs phase diff
  | note runs call phase => exact FleetWorld.goes_same runs at_
  | @cache j rev c write runs =>
    cases write with
    | put | remove => exact FleetWorld.goes_same runs at_

def FleetWorld.Granted (w : FleetWorld) : Prop :=
  ∀ i c hb valid grant, w.calls i = some c → c.call = .heartbeat hb valid →
    c.phase = .ended (.granted grant) → ∀ p ∈ hb.previous, Reported w.log p.id

theorem FleetWorld.Granted.goes {i : Nat} {c : FleetRunning} {phase : FleetPhase}
    (granted : w.Granted) (calls : w'.calls = w.calls) (log : w.log ⊆ w'.log)
    (reports : ∀ hb valid grant, c.call = .heartbeat hb valid → phase = .ended (.granted grant) →
      ∀ p ∈ hb.previous, Reported w'.log p.id) : (w'.goes i c phase).Granted := by
  intro j d hb valid grant at_ call ended p mem
  rcases update_some at_ with ⟨rfl, rfl⟩ | ⟨-, at_⟩
  · exact reports hb valid grant call ended p mem
  · rw [calls] at at_
    exact (granted j d hb valid grant at_ call ended p mem).mono log

theorem FleetCall.enter_going {call : FleetCall} {cached : Cached} {outcome : FleetOutcome} :
    call.enter cached ≠ .ended outcome := by
  cases call with
  | heartbeat =>
    unfold FleetCall.enter FleetCall.slow
    dsimp only
    split
    · nofun
    split
    · nofun
    · nofun
  | retire | requestRetire | resolve | forget => nofun

theorem FleetCall.slow_going {call : FleetCall} {outcome : FleetOutcome} :
    call.slow ≠ .ended outcome := by
  cases call with
  | heartbeat =>
    unfold FleetCall.slow
    dsimp only
    split
    · nofun
    · nofun
  | retire | requestRetire | resolve | forget => nofun

theorem FleetStep.granted (step : FleetStep proxy w w') (inv : w.Inv proxy) (granted : w.Granted) :
    w'.Granted := by
  -- only the common heartbeat, the cached write and the noted one end in a grant
  cases step with
  | elsewhere | expire | restart => exact granted
  | enter =>
    exact granted.goes rfl (List.Subset.refl _)
      fun hb valid grant _ ended => absurd ended FleetCall.enter_going
  | stop runs going | forgotten runs phase | read runs phase
  | refuse runs phase now fails | ready runs phase now ok
  | lose runs phase diff => exact granted.goes rfl (List.Subset.refl _) nofun
  | @fast i c hb valid cached runs call =>
    refine granted.goes rfl subset_noteHeartbeat ?_
    intro other otherValid grant is_ _ p mem
    rw [call] at is_
    cases is_
    exact noteHeartbeat_reports valid p mem
  | fastLost =>
    exact granted.goes rfl (List.Subset.refl _)
      fun hb valid grant _ ended => absurd ended FleetCall.slow_going
  | @put i tries rev c forgotten read rec runs phase eq answered
  | @remove i tries rev c forgotten ended_ read runs phase eq silent answered =>
    refine granted.goes rfl FleetCall.subset_note ?_
    intro hb valid grant _ ended
    cases answered with
    | true | false => cases ended
  | @cache i rev c write runs phase =>
    have reported := inv.fitting runs phase
    cases write with
    | put | remove =>
      exact FleetWorld.Granted.goes granted rfl (List.Subset.refl _)
        fun hb valid grant call _ => reported hb valid call
  | @note i c hb valid grant runs call phase =>
    have reported := inv.fitting runs phase
    exact FleetWorld.Granted.goes granted rfl (List.Subset.refl _)
      fun other otherValid _ is_ _ => reported other otherValid is_

end

end Shunt.Cp
