import HeavyHitters.Fault
import HeavyHitters.Observed
import HeavyHitters.Proofs.Checked
import HeavyHitters.Tally

/-!
# Sessions with observed structures

A client inserts units, asks for keys and asks for networks, in any order.  The first question about
networks is answered from an aggregate of the state, which is kept for all later questions.

* `session` is what a client sees, and `Frozen` what has to hold of it.
* `Service` is a structure on its own with the aggregate that is kept of it;
  `Service.serve` puts requests to it.
* `Service.frozen` says that every session with a service is frozen.  Its three parts are one
  induction on the requests each: `Service.reply_eq`, `Service.exchanges_eq` and `Service.warns`.
-/

namespace HeavyHitters

/-- What a client may put to a structure that takes units `ι` and answers the
questions `ν` about networks. -/
inductive Request (ι ν : Type) where
  | insert (unit : ι)
  | query (key : Key)
  | topK
  | networks (question : ν)

/-- Whether a unit is inserted. -/
def Request.isInsert {ι ν : Type} : Request ι ν → Bool
  | .insert _ => true
  | _ => false

/-- Whether networks are asked for. -/
def Request.isNetworks {ι ν : Type} : Request ι ν → Bool
  | .networks _ => true
  | _ => false

theorem Request.isNetworks_iff {ι ν : Type} {request : Request ι ν} :
    request.isNetworks = true ↔ ∃ question, request = .networks question := by
  cases request <;> simp [isNetworks]

theorem Request.isInsert_of_isNetworks {ι ν : Type} {request : Request ι ν}
    (h : request.isNetworks = true) : request.isInsert = false := by
  obtain ⟨question, rfl⟩ := isNetworks_iff.mp h
  rfl

/-- What a client is answered. -/
inductive Reply where
  | inserted (out : Option Entry)
  | count (count : Int)
  | ranking (records : List (Record Key))
  | networkTally (tally : Tally Network)
  | networkRanking (records : List (Record Network))

/-- A request with its reply and with the owner of the warning that it raised, if it raised one. -/
structure Event (ι ν : Type) where
  request : Request ι ν
  reply : Outcome Reply
  warning : Option String

/-- The events of a session.  Inserts raise warnings, and the first failure ends the session. -/
def session {ω ι ν : Type} (serve : ω → Request ι ν → Outcome (Reply × ω))
    (warning : ω → Option String) : ω → List (Request ι ν) → List (Event ι ν)
  | _, [] => []
  | o, request :: requests =>
    let raised := if request.isInsert then warning o else none
    match serve o request with
    | .error failure => [⟨request, .error failure, raised⟩]
    | .ok (reply, o) => ⟨request, .ok reply, raised⟩ :: session serve warning o requests

/-- What requests lead to. -/
def reach {ω ι ν : Type} (serve : ω → Request ι ν → Outcome (Reply × ω)) (o : ω)
    (requests : List (Request ι ν)) : Outcome ω :=
  requests.foldlM (fun o request => Prod.snd <$> serve o request) o

/-- What every served request keeps is kept by requests that are served one after the other. -/
theorem inv_reach {ω ι ν : Type} {serve : ω → Request ι ν → Outcome (Reply × ω)} (Inv : ω → Prop)
    (step : ∀ {o o' : ω} {request : Request ι ν} {reply : Reply}, Inv o →
      serve o request = .ok (reply, o') → Inv o')
    {start o : ω} {requests : List (Request ι ν)} (h : Inv start)
    (run : reach serve start requests = .ok o) : Inv o := by
  refine Checked.kept_foldlM Inv (fun {o o' request} ho hserve => ?_) h run
  obtain ⟨⟨reply, next⟩, hserved, rfl⟩ := Checked.map_eq_ok.mp hserve
  exact step ho hserved

/-- What a client puts to a structure about keys, and what it is answered. -/
def exchanges {ι ν : Type} (events : List (Event ι ν)) : List (Request ι ν × Outcome Reply) :=
  (events.filter (!·.request.isNetworks)).map fun event => (event.request, event.reply)

section Exchanges

variable {ι ν : Type} {event : Event ι ν} {events : List (Event ι ν)}

theorem exchanges_cons_of_networks (h : event.request.isNetworks = true) :
    exchanges (event :: events) = exchanges events := by
  rw [exchanges, List.filter_cons_of_neg (by simp [h]), exchanges]

theorem exchanges_cons (h : event.request.isNetworks = false) :
    exchanges (event :: events) = (event.request, event.reply) :: exchanges events := by
  rw [exchanges, List.filter_cons_of_pos (by simp [h]), List.map_cons, exchanges]

end Exchanges

/-- The first insert after the first question about networks raises the warning of an
owner, and nothing else does. -/
inductive Warns {ι ν : Type} (owner : String) (events : List (Event ι ν)) : Prop where
  | never (calm : ∀ event ∈ events.dropWhile (!·.request.isNetworks),
      event.request.isInsert = false)
      (silent : ∀ event ∈ events, event.warning = none)
  | once (before : List (Event ι ν)) (stale : Event ι ν) (after : List (Event ι ν))
      (split : events = before ++ stale :: after)
      (asked : ∃ event ∈ before, event.request.isNetworks = true)
      (calm : ∀ event ∈ before.dropWhile (!·.request.isNetworks), event.request.isInsert = false)
      (insert : stale.request.isInsert = true) (raised : stale.warning = some owner)
      (silent : ∀ event ∈ before ++ after, event.warning = none)

/-- What comes before the first question raises no warning. -/
theorem Warns.cons {ι ν : Type} {owner : String} {events : List (Event ι ν)} {event : Event ι ν}
    (h : Warns owner events) (hsilent : event.warning = none)
    (hnetworks : event.request.isNetworks = false) : Warns owner (event :: events) := by
  have hdrop : ∀ events : List (Event ι ν), (event :: events).dropWhile (!·.request.isNetworks)
      = events.dropWhile (!·.request.isNetworks) :=
    fun events => List.dropWhile_cons_of_pos (by simp [hnetworks])
  cases h with
  | never calm silent =>
    exact .never (hdrop events ▸ calm) (List.forall_mem_cons.mpr ⟨hsilent, silent⟩)
  | once before stale after split asked calm insert raised silent =>
    obtain ⟨question, hquestion, hasked⟩ := asked
    refine .once (event :: before) stale after (by rw [split, List.cons_append])
      ⟨question, List.mem_cons_of_mem _ hquestion, hasked⟩ (hdrop before ▸ calm) insert raised ?_
    rw [List.cons_append]
    exact List.forall_mem_cons.mpr ⟨hsilent, silent⟩

/-- What holds of the events of a session, compared with those of the same session without
its questions about networks. -/
structure Frozen {ι ν : Type} (owner : String) (answer : ν → Outcome Reply)
    (events without : List (Event ι ν)) : Prop where
  /-- Each question has one answer, however late it is put. -/
  reply_eq : ∀ event ∈ events, ∀ question, event.request = .networks question →
    event.reply = answer question
  /-- Nothing else is answered otherwise; the session is cut short if a question fails. -/
  exchanges_eq : ∃ missed, exchanges without = exchanges events ++ missed ∧
    ((∀ event ∈ events, event.request.isNetworks = true → ∃ reply, event.reply = .ok reply) →
      missed = [])
  warns : Warns owner events

/-! ## Services -/

/-- A structure on its own, the aggregate that is kept of it, and how questions about networks
are read off the aggregate. -/
structure Service (σ α ι ν : Type) where
  insert : σ → ι → Outcome (σ × Reply)
  query : σ → Key → Outcome Reply
  topK : σ → Outcome Reply
  aggregate : σ → Outcome α
  read : ν → α → Reply
  owner : String

namespace Service

variable {σ α ι ν : Type} (s : Service σ α ι ν) {o o' o₂ : Observed σ α} {request : Request ι ν}
  {requests : List (Request ι ν)} {reply : Reply}

/-- Puts a request to the observed structure. -/
def serve (o : Observed σ α) : Request ι ν → Outcome (Reply × Observed σ α)
  | .insert unit => do
    let (o, reply) ← o.run (s.insert · unit)
    return (reply, o)
  | .query key => do return (← s.query o.state key, o)
  | .topK => do return (← s.topK o.state, o)
  | .networks question => do
    let (answer, o) ← o.ask s.aggregate
    return (s.read question answer, o)

/-- The warning that the next insert raises. -/
def warning (o : Observed σ α) : Option String := if o.isPending then some s.owner else none

/-- What a request that is served does to the observed structure. -/
inductive Serves (o : Observed σ α) : Request ι ν → Reply → Observed σ α → Prop where
  | inserted (unit : ι) (reply : Reply) (state : σ) :
      Serves o (.insert unit) reply (o.advance state)
  | looked {request : Request ι ν} (reply : Reply) (insert : request.isInsert = false)
      (networks : request.isNetworks = false) : Serves o request reply o
  | answered (question : ν) (answer : α) (keeps : ∀ kept, o.answer = some kept → answer = kept) :
      Serves o (.networks question) (s.read question answer) { o with answer := some answer }

variable {s}

theorem serves_of_serve (h : s.serve o request = .ok (reply, o')) :
    s.Serves o request reply o' := by
  cases request with
  | insert unit =>
    obtain ⟨⟨next, given⟩, hrun, h⟩ := Checked.bind_eq_ok.mp h
    obtain ⟨rfl, rfl⟩ := Prod.mk.inj (Checked.pure_eq_ok.mp h)
    rw [Observed.run_eq] at hrun
    cases hinsert : s.insert o.state unit with
    | error failure =>
      rw [hinsert] at hrun
      cases hrun
    | ok result =>
      rw [hinsert] at hrun
      obtain ⟨rfl, rfl⟩ := Prod.mk.inj (Except.ok.inj hrun)
      exact .inserted unit result.2 result.1
  | query key =>
    obtain ⟨answer, -, h⟩ := Checked.bind_eq_ok.mp h
    obtain ⟨rfl, rfl⟩ := Prod.mk.inj (Checked.pure_eq_ok.mp h)
    exact .looked answer rfl rfl
  | topK =>
    obtain ⟨answer, -, h⟩ := Checked.bind_eq_ok.mp h
    obtain ⟨rfl, rfl⟩ := Prod.mk.inj (Checked.pure_eq_ok.mp h)
    exact .looked answer rfl rfl
  | networks question =>
    obtain ⟨⟨answer, next⟩, hask, h⟩ := Checked.bind_eq_ok.mp h
    obtain ⟨rfl, rfl⟩ := Prod.mk.inj (Checked.pure_eq_ok.mp h)
    obtain rfl := Observed.eq_of_ask hask
    refine .answered question answer fun kept hkept => ?_
    rw [Observed.ask_of_answer hkept] at hask
    exact (Prod.mk.inj (Except.ok.inj hask)).1.symm

/-- An event of a session is followed by the session that goes on from there, or
by nothing after a failure. -/
theorem session_cons_cases (s : Service σ α ι ν) (o : Observed σ α) (request : Request ι ν)
    (requests : List (Request ι ν)) :
    (∃ failure, s.serve o request = .error failure ∧
      session s.serve s.warning o (request :: requests)
        = [⟨request, .error failure, if request.isInsert then s.warning o else none⟩]) ∨
    ∃ reply o', s.serve o request = .ok (reply, o') ∧
      session s.serve s.warning o (request :: requests)
        = ⟨request, .ok reply, if request.isInsert then s.warning o else none⟩ ::
          session s.serve s.warning o' requests := by
  rw [session]
  cases h : s.serve o request with
  | error failure => exact .inl ⟨failure, rfl, rfl⟩
  | ok result => exact .inr ⟨result.1, result.2, rfl, rfl⟩

/-! ### One answer for each question -/

theorem Serves.answer_eq_some {answer : α} (h : s.Serves o request reply o')
    (ho : o.answer = some answer) : o'.answer = some answer := by
  cases h with
  | inserted => exact ho
  | looked => exact ho
  | answered question found keeps => exact congrArg some (keeps answer ho)

theorem Serves.answer_eq_none (h : s.Serves o request reply o')
    (hrequest : request.isNetworks = false) (ho : o.answer = none) : o'.answer = none := by
  cases h with
  | inserted => exact ho
  | looked => exact ho
  | answered => cases hrequest

theorem serve_networks_of_some {answer : α} (ho : o.answer = some answer) (question : ν) :
    s.serve o (.networks question : Request ι ν) = .ok (s.read question answer, o) := by
  rw [serve, Observed.ask_of_answer ho]
  rfl

theorem serve_networks_of_none (ho : o.answer = none) (question : ν) :
    s.serve o (.networks question : Request ι ν)
      = (s.aggregate o.state).map fun answer =>
          (s.read question answer, { o with answer := some answer }) := by
  rw [serve, Observed.ask, ho]
  cases s.aggregate o.state <;> rfl

/-- Once an aggregate is kept, all questions are read off it. -/
theorem reply_of_answer {answer : α} (ho : o.answer = some answer) :
    ∀ event ∈ session s.serve s.warning o requests, ∀ question, event.request = .networks question →
      event.reply = .ok (s.read question answer) := by
  induction requests generalizing o with
  | nil => exact List.forall_mem_nil _
  | cons request requests ih =>
    intro event hevent question hquestion
    rcases s.session_cons_cases o request requests with ⟨failure, hserve, hsession⟩ |
      ⟨reply, o', hserve, hsession⟩
    · rw [hsession, List.mem_singleton] at hevent
      subst hevent
      obtain rfl : request = .networks question := hquestion
      rw [serve_networks_of_some ho] at hserve
      cases hserve
    · rw [hsession] at hevent
      rcases List.mem_cons.mp hevent with rfl | hevent
      · obtain rfl : request = .networks question := hquestion
        rw [serve_networks_of_some ho] at hserve
        obtain ⟨rfl, -⟩ := Prod.mk.inj (Except.ok.inj hserve)
        rfl
      · exact ih ((serves_of_serve hserve).answer_eq_some ho) event hevent question hquestion

/-- **All questions are read off one aggregate**, that of the state to which the requests
before the first question lead. -/
theorem reply_eq (ho : o.answer = none) :
    ∀ event ∈ session s.serve s.warning o requests, ∀ question, event.request = .networks question →
      event.reply = (do
        let asked ← reach s.serve o (requests.takeWhile (!·.isNetworks))
        s.read question <$> s.aggregate asked.state) := by
  induction requests generalizing o with
  | nil => exact List.forall_mem_nil _
  | cons request requests ih =>
    intro event hevent question hquestion
    cases hrequest : request.isNetworks with
    | true =>
      -- the first question: the aggregate is taken here, unless that fails
      obtain ⟨first, rfl⟩ := Request.isNetworks_iff.mp hrequest
      rw [List.takeWhile_cons_of_neg (by simp [hrequest])]
      show _ = s.read question <$> s.aggregate o.state
      rw [session, serve_networks_of_none ho] at hevent
      cases haggregate : s.aggregate o.state with
      | error failure =>
        rw [haggregate] at hevent
        obtain rfl := List.mem_singleton.mp hevent
        rfl
      | ok answer =>
        rw [haggregate] at hevent
        rcases List.mem_cons.mp hevent with rfl | hevent
        · obtain rfl : first = question := Request.networks.inj hquestion
          rfl
        · exact reply_of_answer rfl event hevent question hquestion
    | false =>
      rw [List.takeWhile_cons_of_pos (by simp [hrequest]), reach, List.foldlM_cons]
      have hne : request ≠ .networks question := fun h => by
        simp [h, Request.isNetworks] at hrequest
      rcases s.session_cons_cases o request requests with ⟨failure, hserve, hsession⟩ |
        ⟨reply, o', hserve, hsession⟩
      · rw [hsession, List.mem_singleton] at hevent
        subst hevent
        exact absurd hquestion hne
      · rw [hserve]
        rw [hsession] at hevent
        rcases List.mem_cons.mp hevent with rfl | hevent
        · exact absurd hquestion hne
        · exact ih ((serves_of_serve hserve).answer_eq_none hrequest ho) event
            hevent question hquestion

/-! ### The same answers without questions -/

/-- Requests about keys are served from the structure alone. -/
theorem serve_congr (hstate : o₂.state = o.state) (hrequest : request.isNetworks = false) :
    (s.serve o₂ request).map (fun (reply, o) => (reply, o.state))
      = (s.serve o request).map (fun (reply, o) => (reply, o.state)) := by
  cases request with
  | insert unit =>
    simp only [serve, Observed.run_eq, hstate]
    cases s.insert o.state unit <;> rfl
  | query key =>
    simp only [serve, hstate]
    cases s.query o.state key <;> simp [bind, Except.bind, pure, Except.pure, Except.map, hstate]
  | topK =>
    simp only [serve, hstate]
    cases s.topK o.state <;> simp [bind, Except.bind, pure, Except.pure, Except.map, hstate]
  | networks question => cases hrequest

theorem Serves.state_eq (h : s.Serves o request reply o') (hrequest : request.isNetworks = true) :
    o'.state = o.state := by
  cases h with
  | inserted => cases hrequest
  | looked => rfl
  | answered => rfl

/-- **Questions do not disturb the session.**  Both sessions go on from the
same state of the structure. -/
theorem exchanges_eq (hstate : o₂.state = o.state) : ∃ missed,
    exchanges (session s.serve s.warning o₂ (requests.filter (!·.isNetworks)))
        = exchanges (session s.serve s.warning o requests) ++ missed ∧
      ((∀ event ∈ session s.serve s.warning o requests, event.request.isNetworks = true →
        ∃ reply, event.reply = .ok reply) → missed = []) := by
  induction requests generalizing o o₂ with
  | nil => exact ⟨[], rfl, fun _ => rfl⟩
  | cons request requests ih =>
    cases hrequest : request.isNetworks with
    | true =>
      rw [List.filter_cons_of_neg (by simp [hrequest])]
      rcases s.session_cons_cases o request requests with ⟨failure, hserve, hsession⟩ |
        ⟨reply, o', hserve, hsession⟩
      · -- the question fails, and everything after it is missed
        rw [hsession, exchanges_cons_of_networks hrequest]
        refine ⟨_, (List.nil_append _).symm, fun hanswered => ?_⟩
        obtain ⟨reply, hreply⟩ := hanswered _ List.mem_cons_self hrequest
        cases hreply
      · have hstate' := ((serves_of_serve hserve).state_eq hrequest).symm
        obtain ⟨missed, hmissed, hnone⟩ := ih (hstate.trans hstate')
        rw [hsession, exchanges_cons_of_networks hrequest]
        exact ⟨missed, hmissed, fun h => hnone fun event he => h event (List.mem_cons_of_mem _ he)⟩
    | false =>
      rw [List.filter_cons_of_pos (by simp [hrequest])]
      have hcongr := s.serve_congr hstate hrequest
      rcases s.session_cons_cases o request requests with ⟨failure, hserve, hsession⟩ |
        ⟨reply, o', hserve, hsession⟩ <;>
      rcases s.session_cons_cases o₂ request (requests.filter (!·.isNetworks)) with
        ⟨failure₂, hserve₂, hsession₂⟩ | ⟨reply₂, o₂', hserve₂, hsession₂⟩ <;>
      rw [hserve, hserve₂] at hcongr
      · obtain rfl := Except.error.inj hcongr
        rw [hsession, hsession₂, exchanges_cons hrequest, exchanges_cons hrequest]
        exact ⟨[], (List.append_nil _).symm, fun _ => rfl⟩
      · cases hcongr
      · cases hcongr
      · obtain ⟨rfl, hstate'⟩ := Prod.mk.inj (Except.ok.inj hcongr)
        obtain ⟨missed, hmissed, hnone⟩ := ih hstate'
        rw [hsession, hsession₂, exchanges_cons hrequest, exchanges_cons hrequest, hmissed]
        exact ⟨missed, rfl, fun h => hnone fun event he => h event (List.mem_cons_of_mem _ he)⟩

/-! ### One warning -/

/-- An insert that finds an answer kept marks it as reported; nothing else does. -/
theorem Serves.warned_eq (h : s.Serves o request reply o') :
    o'.warned = (o.warned || request.isInsert && o.answer.isSome) := by
  cases h with
  | inserted => rfl
  | looked _ hinsert => rw [hinsert, Bool.false_and, Bool.or_false]
  | answered => exact (Bool.or_false _).symm

theorem Serves.isSome_answer (h : s.Serves o request reply o')
    (hasked : o.answer.isSome = true ∨ request.isNetworks = true) : o'.answer.isSome = true := by
  cases h with
  | inserted => exact hasked.resolve_right Bool.false_ne_true
  | looked _ _ hnetworks => exact hasked.resolve_right (by simp [hnetworks])
  | answered => rfl

/-- A session goes on with its first event, and then from where the first
request led, unless that failed. -/
theorem exists_session_cons (s : Service σ α ι ν) (o : Observed σ α) (request : Request ι ν)
    (requests : List (Request ι ν)) : ∃ event rest,
    session s.serve s.warning o (request :: requests) = event :: rest ∧ event.request = request ∧
      event.warning = (if request.isInsert then s.warning o else none) ∧
      (rest = [] ∨ ∃ reply o', s.Serves o request reply o' ∧
        rest = session s.serve s.warning o' requests) := by
  rcases s.session_cons_cases o request requests with ⟨failure, hserve, hsession⟩ |
    ⟨reply, o', hserve, hsession⟩
  · exact ⟨_, _, hsession, rfl, rfl, .inl rfl⟩
  · exact ⟨_, _, hsession, rfl, rfl, .inr ⟨reply, o', serves_of_serve hserve, rfl⟩⟩

/-- After the warning there is none. -/
theorem silent_of_warned (hanswer : o.answer.isSome = true) (hwarned : o.warned = true) :
    ∀ event ∈ session s.serve s.warning o requests, event.warning = none := by
  induction requests generalizing o with
  | nil => exact List.forall_mem_nil _
  | cons request requests ih =>
    obtain ⟨event, rest, hsession, -, hwarning, hrest⟩ := s.exists_session_cons o request requests
    rw [hsession, List.forall_mem_cons]
    refine ⟨?_, ?_⟩
    · rw [hwarning, warning, Observed.isPending, hwarned]
      simp
    · rcases hrest with rfl | ⟨reply, o', hserves, rfl⟩
      · exact List.forall_mem_nil _
      · refine ih (hserves.isSome_answer (.inl hanswer)) ?_
        rw [hserves.warned_eq, hwarned, Bool.true_or]

/-- With an answer that is kept the next insert raises the warning. -/
theorem warns_of_isPending (hanswer : o.answer.isSome = true) (hwarned : o.warned = false) :
    (∀ event ∈ session s.serve s.warning o requests,
      event.request.isInsert = false ∧ event.warning = none) ∨
    ∃ before stale after, session s.serve s.warning o requests = before ++ stale :: after ∧
      (∀ event ∈ before, event.request.isInsert = false ∧ event.warning = none) ∧
      stale.request.isInsert = true ∧ stale.warning = some s.owner ∧
      ∀ event ∈ after, event.warning = none := by
  induction requests generalizing o with
  | nil => exact .inl (List.forall_mem_nil _)
  | cons request requests ih =>
    obtain ⟨event, rest, hsession, rfl, hwarning, hrest⟩ := s.exists_session_cons o request requests
    rw [hsession]
    cases hinsert : event.request.isInsert with
    | true =>
      rw [hinsert, if_pos rfl, warning, Observed.isPending, hanswer, hwarned] at hwarning
      refine .inr ⟨[], event, rest, rfl, List.forall_mem_nil _, hinsert, hwarning, ?_⟩
      rcases hrest with rfl | ⟨reply, o', hserves, rfl⟩
      · exact List.forall_mem_nil _
      · refine silent_of_warned (hserves.isSome_answer (.inl hanswer)) ?_
        rw [hserves.warned_eq, hinsert, hanswer, Bool.and_true, Bool.or_true]
    | false =>
      rw [hinsert, if_neg Bool.false_ne_true] at hwarning
      rcases hrest with rfl | ⟨reply, o', hserves, rfl⟩
      · exact .inl (List.forall_mem_cons.mpr ⟨⟨hinsert, hwarning⟩, List.forall_mem_nil _⟩)
      · have hwarned' : o'.warned = false := by
          rw [hserves.warned_eq, hwarned, hinsert, Bool.false_and, Bool.or_false]
        rcases ih (hserves.isSome_answer (.inl hanswer)) hwarned' with
          hcalm | ⟨before, stale, after, hsplit, hbefore, hstale⟩
        · exact .inl (List.forall_mem_cons.mpr ⟨⟨hinsert, hwarning⟩, hcalm⟩)
        · refine .inr ⟨event :: before, stale, after, ?_, ?_, hstale⟩
          · rw [hsplit, List.cons_append]
          · exact List.forall_mem_cons.mpr ⟨⟨hinsert, hwarning⟩, hbefore⟩

/-- **The first insert after the first question warns**, and nothing else does. -/
theorem warns (hanswer : o.answer = none) (hwarned : o.warned = false) :
    Warns s.owner (session s.serve s.warning o requests) := by
  induction requests generalizing o with
  | nil => exact .never (List.forall_mem_nil _) (List.forall_mem_nil _)
  | cons request requests ih =>
    obtain ⟨event, rest, hsession, rfl, hwarning, hrest⟩ := s.exists_session_cons o request requests
    have hsilent : event.warning = none := by
      rw [hwarning, warning, Observed.isPending, hanswer]
      simp
    rw [hsession]
    cases hnetworks : event.request.isNetworks with
    | true =>
      have hinsert := Request.isInsert_of_isNetworks hnetworks
      have hdrop : ∀ events,
          (event :: events).dropWhile (!·.request.isNetworks) = event :: events :=
        fun events => List.dropWhile_cons_of_neg (by simp [hnetworks])
      rcases hrest with rfl | ⟨reply, o', hserves, rfl⟩
      · refine .never ?_ (by simp [hsilent])
        rw [hdrop]
        simp [hinsert]
      · have hwarned' : o'.warned = false := by
          rw [hserves.warned_eq, hwarned, hinsert, Bool.false_and, Bool.or_false]
        rcases s.warns_of_isPending (hserves.isSome_answer (.inr hnetworks)) hwarned' with
          hcalm | ⟨before, stale, after, hsplit, hbefore, hstale, hraised, hafter⟩
        · refine .never ?_ (List.forall_mem_cons.mpr ⟨hsilent, fun e he => (hcalm e he).2⟩)
          rw [hdrop]
          exact List.forall_mem_cons.mpr ⟨hinsert, fun e he => (hcalm e he).1⟩
        · refine .once (event :: before) stale after ?_ ⟨event, List.mem_cons_self, hnetworks⟩ ?_
            hstale hraised ?_
          · rw [hsplit, List.cons_append]
          · rw [hdrop]
            exact List.forall_mem_cons.mpr ⟨hinsert, fun e he => (hbefore e he).1⟩
          · rw [List.cons_append]
            refine List.forall_mem_cons.mpr ⟨hsilent, fun e he => ?_⟩
            exact (List.mem_append.mp he).elim (fun he => (hbefore e he).2) (hafter e)
    | false =>
      rcases hrest with rfl | ⟨reply, o', hserves, rfl⟩
      · refine .never ?_ (by simp [hsilent])
        rw [List.dropWhile_cons_of_pos (by simp [hnetworks])]
        exact List.forall_mem_nil _
      · have hwarned' : o'.warned = false := by
          rw [hserves.warned_eq, hwarned, hanswer, Option.isSome_none,
            Bool.and_false, Bool.or_false]
        exact (ih (hserves.answer_eq_none hnetworks hanswer) hwarned').cons hsilent hnetworks

/-- **Sessions are frozen.** -/
theorem frozen (s : Service σ α ι ν) (start : σ) (requests : List (Request ι ν)) :
    Frozen s.owner
      (fun question => do
        let asked ← reach s.serve (.fresh start) (requests.takeWhile (!·.isNetworks))
        s.read question <$> s.aggregate asked.state)
      (session s.serve s.warning (.fresh start) requests)
      (session s.serve s.warning (.fresh start) (requests.filter (!·.isNetworks))) where
  reply_eq := reply_eq rfl
  exchanges_eq := exchanges_eq rfl
  warns := warns rfl rfl

end Service

end HeavyHitters
