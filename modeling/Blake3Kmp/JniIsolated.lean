/-
Streams of the JNI module under threads.

* `Fits.start_some`, `Fits.finish_some` — a call on a stream starts, and ends as
  one more of the calls made of it;
* `hasherLedger_kept` — every step keeps what the threads have;
* `isolated_of_reach` — so the streams are isolated in every run;
* `freed_twice` — and not without the condition on the runs.
-/
import Blake3Kmp.JniHolds

open CheckedMemory Programs Prog

namespace Blake3Kmp

/-- The ledger of the streams. -/
def hasherLedger (p : Platform) :
    Ledger ℕ KmpCmd KmpCmd.Answer Throwable KmpCall Reply KmpShared (Option Hold) where
  contract := holdContract p
  during := During
  post := Does.post p
  fits := fun s has history => ∃ now base, Fits p s has history now base

section

variable {p : Platform} {s : KmpShared} {has : ℕ → Option (Option Hold)} {history : KmpHistory}
  {now : ℕ → Belongings} {base : ℕ → Option (Option Hasher)}
  (hf : Fits p s has history now base) {t : ℕ}
include hf

/-! ### Starts and ends -/

/-- A call on a stream starts. -/
theorem Fits.start_some (hidle : has t = none) {call : KmpCall} {h : Hold}
    (hheld : h.now = now h.self ∧ h.base = base h.self ∧
      h.passed = passedBytes (callsOn h.self history))
    (hapart : ∀ u h', Has has u h' → h'.self = h.self → h.writes = false ∧ h'.writes = false)
    (hbegun : ∃ u key, .started u (.new h.self key) ∈ (.started t call :: history : KmpHistory)) :
    Fits p s (Function.update has t (some (some h))) (.started t call :: history) now base := by
  refine
    { field := hf.field
      heap := hf.heap
      distinct := hf.distinct
      past := hf.past
      follows := hf.follows
      held := ?_
      apart := ?_
      settled := ?_
      begun := ?_
      hashes := ?_ }
  · intro u h' hu
    rcases has_update_some.mp hu with ⟨rfl, heq⟩ | ⟨-, hu⟩
    · cases heq
      exact hheld
    · exact hf.held u h' hu
  · intro u v h₁ h₂ hu hv hself
    rcases has_update_some.mp hu with ⟨hut, heq⟩ | ⟨-, hu'⟩
    · cases heq
      rcases has_update_some.mp hv with ⟨hvt, -⟩ | ⟨-, hv'⟩
      · exact .inl (hut.trans hvt.symm)
      · exact .inr (hapart v h₂ hv' hself.symm)
    · rcases has_update_some.mp hv with ⟨-, heq⟩ | ⟨-, hv'⟩
      · cases heq
        exact .inr (hapart u h₁ hu' hself).symm
      · exact hf.apart u v h₁ h₂ hu' hv' hself
  · intro i hreaders
    refine hf.settled i ?_
    intro u h' hu hself
    refine hreaders u h' (has_update_some.mpr (.inr ⟨?_, hu⟩)) hself
    rintro rfl
    exact absurd (hidle.symm.trans hu) (by simp)
  · rintro i (hbase | ⟨u, h', hu, rfl⟩)
    · obtain ⟨v, key, hmem⟩ := hf.begun i (.inl hbase)
      exact ⟨v, key, List.mem_cons_of_mem _ hmem⟩
    · rcases has_update_some.mp hu with ⟨rfl, heq⟩ | ⟨-, hu⟩
      · cases heq
        exact hbegun
      · obtain ⟨v, key, hmem⟩ := hf.begun h'.self (.inr ⟨u, h', hu, rfl⟩)
        exact ⟨v, key, List.mem_cons_of_mem _ hmem⟩
  · intro u call' r hmem hstream
    rcases List.mem_cons.mp hmem with heq | hmem
    · exact absurd heq (by simp)
    · exact hf.hashes u call' r hmem hstream

/-- Something that is no hold of a stream comes or goes. -/
theorem Fits.of_has {has' : ℕ → Option (Option Hold)} {history' : KmpHistory}
    (hhas : ∀ u h, Has has' u h ↔ Has has u h)
    (hcalls : ∀ i, callsOn i history' = callsOn i history)
    (hmem : ∀ e ∈ history, e ∈ history')
    (hhashes : ∀ u call r, .finished u call r ∈ history' → call.stream? = none →
      Does p none call r none) : Fits p s has' history' now base where
  field := hf.field
  heap := hf.heap
  distinct := hf.distinct
  held := by
    intro u h hu
    rw [hcalls]
    exact hf.held u h ((hhas u h).mp hu)
  apart := fun u v h h' hu hv => hf.apart u v h h' ((hhas u h).mp hu) ((hhas v h').mp hv)
  settled := fun i hreaders => hf.settled i fun u h hu => hreaders u h ((hhas u h).mpr hu)
  past := by
    intro i
    rw [hcalls]
    exact hf.past i
  begun := by
    rintro i (hbase | ⟨u, h, hu, hself⟩)
    · obtain ⟨v, key, hv⟩ := hf.begun i (.inl hbase)
      exact ⟨v, key, hmem _ hv⟩
    · obtain ⟨v, key, hv⟩ := hf.begun i (.inr ⟨u, h, (hhas u h).mp hu, hself⟩)
      exact ⟨v, key, hmem _ hv⟩
  follows := by
    intro i h hbase
    rw [hcalls]
    exact hf.follows i h hbase
  hashes := hhashes

/-- A stream on which a call has ended follows its message. -/
theorem Fits.follows_does (hp : p.Agree) {h : Hold} (hg : Has has t h) {call : KmpCall}
    (hstream : call.stream? = some h.self) (hfine : call.NoOverflow)
    (hlt : h.passed + call.passed < 2 ^ 64) {r : Except Throwable Reply} {x : Hasher}
    (hdoes : Does p h.base call r (some (some x))) :
    ∃ key m, x.Follows key m ∧
      m.length ≤ passedBytes (callsOn h.self history ++ [(call, r)]) := by
  obtain ⟨-, hbase, hpassed⟩ := hf.held t h hg
  rw [passedBytes_append, ← hpassed]
  cases call with
  | new self key =>
    obtain ⟨-, ⟨env, e, -, -, hnone⟩ | ⟨env, k, memory, -, -, hsome⟩⟩ := hdoes
    · exact absurd hnone (by simp)
    · obtain rfl := Option.some.inj (Option.some.inj hsome)
      exact ⟨k, [], newHasher_follows memory k, Nat.zero_le _⟩
  | call self op =>
    obtain ⟨st, pinned, hst, -, hsome⟩ := hdoes
    have hsome := (Option.some.inj hsome).symm
    cases st with
    | none =>
      rw [(step_closed pinned op).2] at hsome
      exact absurd hsome (by simp)
    | some y =>
      obtain ⟨key, m, hm, hlen⟩ := hf.follows h.self y (hbase.symm.trans hst)
      rw [← hpassed] at hlen
      have hsum := Nat.add_le_add_right hlen op.passed
      obtain ⟨m', hm', hlen'⟩ := (step_follows hp hm hfine
        (Nat.lt_of_le_of_lt hsum hlt) pinned).2 x hsome
      exact ⟨key, m', hm', Nat.le_trans hlen' hsum⟩
  | hash data outLen => exact absurd hstream (by simp [KmpCall.stream?])
  | keyedHash key data outLen => exact absurd hstream (by simp [KmpCall.stream?])

omit hf in
/-- A call that only reads leaves the stream as it was. -/
theorem Does.readsOnly {st st' : Option (Option Hasher)} {call : KmpCall}
    (hread : call.readsOnly = true) {r : Except Throwable Reply} (hdoes : Does p st call r st') :
    st' = st := by
  cases call with
  | call self op =>
    obtain ⟨self, pinned, rfl, -, rfl⟩ := hdoes
    rw [step_readsOnly hread]
  | _ => exact absurd hread (by simp [KmpCall.readsOnly])

/-- **A call on a stream ends**: it is one more of the calls made of it. -/
theorem Fits.finish_some (hp : p.Agree) {h : Hold} (hg : Has has t h) {call : KmpCall}
    (hstream : call.stream? = some h.self) (hwrites : h.writes = !call.readsOnly)
    (hfine : call.NoOverflow) (hlt : h.passed + call.passed < 2 ^ 64)
    {r : Except Throwable Reply} {st : Option (Option Hasher)} (hdoes : Does p h.base call r st)
    (hshows : h.now.Shows st) :
    Fits p s (Function.update has t none) (.finished t call r :: history) now
      (Function.update base h.self st) := by
  obtain ⟨hnow, hbase, hpassed⟩ := hf.held t h hg
  have hcalls : callsOn h.self (.finished t call r :: history) =
      callsOn h.self history ++ [(call, r)] := by
    rw [callsOn, if_pos hstream]
  have hothers : ∀ i, i ≠ h.self → callsOn i (.finished t call r :: history) =
      callsOn i history := by
    intro i hi
    rw [callsOn, if_neg]
    intro hc
    exact hi (Option.some.inj (hc.symm.trans hstream))
  have hread : h.writes = false → call.readsOnly = true := by
    intro hw
    rw [hw] at hwrites
    simpa using hwrites.symm
  refine
    { field := hf.field
      heap := hf.heap
      distinct := hf.distinct
      held := ?_
      apart := ?_
      settled := ?_
      past := ?_
      begun := ?_
      follows := ?_
      hashes := ?_ }
  · intro u h' hu
    obtain ⟨hut, hu⟩ := has_update_none.mp hu
    obtain ⟨hnow', hbase', hpassed'⟩ := hf.held u h' hu
    refine ⟨hnow', ?_⟩
    by_cases hself : h'.self = h.self
    · -- another reader
      rcases hf.apart t u h h' hg hu hself.symm with heq | ⟨hw, -⟩
      · exact absurd heq.symm hut
      · have hr := hread hw
        rw [hself, Function.update_self, hcalls, passedBytes_append,
          KmpCall.passed_of_readsOnly hr, Nat.add_zero, hdoes.readsOnly hr, hbase, hbase',
          hpassed', hself]
        exact ⟨rfl, rfl⟩
    · rw [Function.update_of_ne hself, hothers _ hself]
      exact ⟨hbase', hpassed'⟩
  · intro u v h₁ h₂ hu hv
    exact hf.apart u v h₁ h₂ (has_update_none.mp hu).2 (has_update_none.mp hv).2
  · intro i hreaders
    by_cases hi : i = h.self
    · rw [hi, Function.update_self, ← hnow]
      exact hshows
    · rw [Function.update_of_ne hi]
      refine hf.settled i ?_
      intro u h' hu hself
      refine hreaders u h' (has_update_none.mpr ⟨?_, hu⟩) hself
      rintro rfl
      obtain rfl : h' = h := Option.some.inj (Option.some.inj (hu.symm.trans hg))
      exact hi hself.symm
  · intro i
    by_cases hi : i = h.self
    · rw [hi, Function.update_self, hcalls]
      refine (hf.past h.self).snoc hstream hfine ?_
      rw [← hbase]
      exact hdoes
    · rw [Function.update_of_ne hi, hothers i hi]
      exact hf.past i
  · intro i hi
    have hbegun : ∃ u key, Happened.started u (.new i key) ∈ history := by
      by_cases his : i = h.self
      · exact hf.begun i (.inr ⟨t, h, hg, his.symm⟩)
      · rcases hi with hb | ⟨u, h', hu, hself⟩
        · rw [Function.update_of_ne his] at hb
          exact hf.begun i (.inl hb)
        · exact hf.begun i (.inr ⟨u, h', (has_update_none.mp hu).2, hself⟩)
    obtain ⟨u, key, hmem⟩ := hbegun
    exact ⟨u, key, List.mem_cons_of_mem _ hmem⟩
  · intro i x hx
    by_cases hi : i = h.self
    · rw [hi, Function.update_self] at hx
      rw [hx] at hdoes
      rw [hi, hcalls]
      exact hf.follows_does hp hg hstream hfine hlt hdoes
    · rw [Function.update_of_ne hi] at hx
      rw [hothers i hi]
      exact hf.follows i x hx
  · intro u call' r' hmem hnone
    rcases List.mem_cons.mp hmem with heq | hmem
    · cases heq
      exact absurd (hnone.symm.trans hstream) (by simp)
    · exact hf.hashes u call' r' hmem hnone

end

/-! ### Every step keeps it -/

section

variable {p : Platform} {cfg : KmpConfig} {has : ℕ → Option (Option Hold)}

/-- **No two threads are at one hasher**, unless both only read it. -/
theorem balanced_apart (hb : (hasherLedger p).Balanced cfg.shared cfg.rest cfg.history has)
    {t u : ℕ} (htu : t ≠ u) {call call' : KmpCall} {c c' : KmpCmd}
    {next : Except Throwable c.Answer → KmpProg Reply}
    {next' : Except Throwable c'.Answer → KmpProg Reply}
    (ht : cfg.rest t = some (call, .perform c next))
    (hu : cfg.rest u = some (call', .perform c' next')) {a : UInt64} (ha : c.address? = some a)
    (ha' : c'.address? = some a) : c.Const ∧ c'.Const := by
  obtain ⟨now, base, hf⟩ := hb.fits
  obtain ⟨g, hg, -, hreq, -⟩ := hb.running t call _ ht
  obtain ⟨g', hg', -, hreq', -⟩ := hb.running u call' _ hu
  obtain ⟨h, x, rfl, hx, hc⟩ := holdContract_address hreq ha
  obtain ⟨h', x', rfl, hx', hc'⟩ := holdContract_address hreq' ha'
  rw [(hf.held t h hg).1] at hx
  rw [(hf.held u h' hg').1] at hx'
  rcases hf.apart t u h h' hg hg' (hf.distinct _ _ a x x' hx hx') with heq | ⟨hw, hw'⟩
  · exact absurd heq htu
  · rw [hw] at hc
    rw [hw'] at hc'
    exact ⟨hc.resolve_left (by simp), hc'.resolve_left (by simp)⟩

/-- A thread that has a stream is in a call on it. -/
theorem balanced_call (hb : (hasherLedger p).Balanced cfg.shared cfg.rest cfg.history has)
    {u : ℕ} {h : Hold} (hu : Has has u h) : ∃ call x, cfg.rest u = some (call, x) ∧
      call.stream? = some h.self ∧ h.writes = !call.readsOnly := by
  cases hrest : cfg.rest u with
  | none => exact absurd ((hb.idle u hrest).symm.trans hu) (by simp)
  | some cx =>
    obtain ⟨call, x⟩ := cx
    obtain ⟨g, hg, ⟨hself, hfine⟩, -⟩ := hb.running u call x hrest
    obtain rfl : g = some h := Option.some.inj (hg.symm.trans hu)
    exact ⟨call, x, rfl, hself.symm, (hfine h rfl).1⟩

/-- Nothing has been passed to a stream that is not constructed. -/
theorem passedBytes_of_none {i : ℕ} {calls : List (KmpCall × Except Throwable Reply)}
    (h : ∀ c ∈ calls, ∃ key e, c = (.new i key, .error e)) : passedBytes calls = 0 := by
  refine List.sum_eq_zero ?_
  intro n hn
  obtain ⟨c, hc, rfl⟩ := List.mem_map.mp hn
  obtain ⟨key, e, rfl⟩ := h c hc
  rfl

/-- A one-shot call starts. -/
theorem start_none {call : KmpCall}
    (hb : (hasherLedger p).Balanced cfg.shared cfg.rest cfg.history has) {t : ℕ}
    (hidle : has t = none) : ∃ now base, Fits p cfg.shared (Function.update has t (some none))
      (.started t call :: cfg.history) now base := by
  obtain ⟨now, base, hf⟩ := hb.fits
  refine ⟨now, base, hf.of_has ?_ (fun _ => rfl) (fun e he => List.mem_cons_of_mem _ he) ?_⟩
  · intro u h
    rw [has_update_some]
    constructor
    · rintro (⟨-, heq⟩ | ⟨-, hu⟩)
      · exact absurd heq (by simp)
      · exact hu
    · intro hu
      refine .inr ⟨?_, hu⟩
      rintro rfl
      exact absurd (hidle.symm.trans hu) (by simp)
  · intro u call' r hmem hstream
    rcases List.mem_cons.mp hmem with heq | hmem
    · exact absurd heq (by simp)
    · exact hf.hashes u call' r hmem hstream

end

/-- **Every step keeps the ledger.** -/
theorem hasherLedger_kept {p : Platform} (hp : p.Agree) :
    (hasherLedger p).Kept (kmpPool p) Exclusive where
  start := by
    intro cfg has t call hb hrest hmay hok
    obtain ⟨now, base, hf⟩ := hb.fits
    have hidle := hb.idle t hrest
    cases call with
    | new self key =>
      have hfresh : ∀ u key, .started u (.new self key) ∉ cfg.history := hmay
      have hbase : base self = none := by
        by_contra hne
        obtain ⟨u, key', hu⟩ := hf.begun self (.inl hne)
        exact hfresh u key' hu
      have hfree : ∀ u h, Has has u h → h.self ≠ self := by
        intro u h hu hself
        obtain ⟨v, key', hv⟩ := hf.begun self (.inr ⟨u, h, hu, hself⟩)
        exact hfresh v key' hv
      have hblank : now self = .blank := by
        have hshows := hf.settled self fun u h hu hself => absurd hself (hfree u h hu)
        rw [hbase] at hshows
        exact hshows
      have hpassed : passedBytes (callsOn self cfg.history) = 0 :=
        passedBytes_of_none ((hf.past self).of_none hbase)
      refine ⟨some ⟨self, true, none, 0, .blank⟩, ⟨now, base, ?_⟩, ⟨rfl, ?_⟩,
        wp_body hp ⟨rfl, rfl, rfl, rfl⟩⟩
      · exact hf.start_some hidle ⟨hblank.symm, hbase.symm, hpassed.symm⟩
          (fun u h hu hself => absurd hself (hfree u h hu)) ⟨t, key, List.mem_cons_self⟩
      · intro h hh
        cases hh
        exact ⟨rfl, trivial, Nat.two_pow_pos 64⟩
    | call self op =>
      obtain ⟨hexcl, hno, hlt⟩ := hok
      have hmay : Returned cfg.history self := hmay
      obtain ⟨u, key, r, hmade⟩ := hmay
      have hbase : base self ≠ none := by
        intro hnone
        have hmem : ((.new self key, .ok r) : KmpCall × Except Throwable Reply) ∈
            callsOn self cfg.history := mem_callsOn.mpr ⟨rfl, u, hmade⟩
        obtain ⟨key', e, heq⟩ := (hf.past self).of_none hnone _ hmem
        exact absurd heq (by simp)
      obtain ⟨st, hst⟩ := Option.ne_none_iff_exists'.mp hbase
      -- whoever has the stream already only reads, as this call then does
      have hreaders : ∀ v h, Has has v h → h.self = self →
          op.readsOnly = true ∧ h.writes = false := by
        rintro v h hv rfl
        obtain ⟨call, x, hcall, hstream, hw⟩ := balanced_call hb hv
        obtain ⟨hread, hread'⟩ := hexcl v call x hcall hstream
        rw [hread'] at hw
        exact ⟨hread, hw⟩
      have hshows := hf.settled self fun v h hv hself => (hreaders v h hv hself).2
      have hdef : (op.step p true st).1 ≠ .fault := by
        cases st with
        | none => exact (step_closed true op).1
        | some x =>
          obtain ⟨k, m, hm, hlen⟩ := hf.follows self x hst
          exact (step_follows hp hm hno
            (Nat.lt_of_le_of_lt (Nat.add_le_add_right hlen _) hlt) true).1
      rw [hst] at hshows
      refine ⟨some ⟨self, !op.readsOnly, some st, passedBytes (callsOn self cfg.history),
        now self⟩, ⟨now, base, ?_⟩, ⟨rfl, ?_⟩, wp_body hp ⟨rfl, rfl, st, rfl, hshows, hdef⟩⟩
      · refine hf.start_some hidle ⟨rfl, hst.symm, rfl⟩ ?_ ?_
        · intro v h hv hself
          obtain ⟨hread, hw⟩ := hreaders v h hv hself
          exact ⟨by simp [hread], hw⟩
        · obtain ⟨v, key', hv⟩ := hf.begun self (.inl hbase)
          exact ⟨v, key', List.mem_cons_of_mem _ hv⟩
      · intro h hh
        cases hh
        exact ⟨rfl, hno, hlt⟩
    | hash data outLen =>
      exact ⟨none, start_none hb hidle, ⟨rfl, fun h hh => absurd hh (by simp)⟩,
        wp_body hp trivial⟩
    | keyedHash key data outLen =>
      exact ⟨none, start_none hb hidle, ⟨rfl, fun h hh => absurd hh (by simp)⟩,
        wp_body hp trivial⟩
  answer := by
    intro cfg has t call c next r s' g hb hrest hg hduring hreq hans _
    obtain ⟨now, base, hf⟩ := hb.fits
    rcases hans with ⟨a, u, call', c', next', hut, hwait, ha, ha', hconst⟩ | hans
    · -- no thread is at the hasher of another
      have hu : cfg.rest u = some (call', .perform c' next') := by
        rw [Config.rest, hwait]
        rfl
      exact absurd (balanced_apart hb (Ne.symm hut) hrest hu ha ha') hconst
    · cases g with
      | none =>
        obtain ⟨g', hallowed, now', hf'⟩ := hf.answer_none hg hreq hans
        exact ⟨g', hallowed, hduring.keeps hallowed, now', base, hf'⟩
      | some h =>
        obtain ⟨g', hallowed, now', hf'⟩ := hf.answer_some hg hreq hans
        exact ⟨g', hallowed, hduring.keeps hallowed, now', base, hf'⟩
  finish := by
    rintro cfg has t call r g hb hg ⟨hself, hfine⟩ hpost -
    obtain ⟨now, base, hf⟩ := hb.fits
    cases g with
    | none =>
      have hstream : call.stream? = none := hself.symm
      refine ⟨now, base, hf.of_has ?_ ?_ (fun e he => List.mem_cons_of_mem _ he) ?_⟩
      · intro u h
        rw [has_update_none]
        constructor
        · exact fun hu => hu.2
        · intro hu
          refine ⟨?_, hu⟩
          rintro rfl
          exact absurd (hg.symm.trans hu) (by simp)
      · intro i
        rw [callsOn, hstream, if_neg (by simp)]
      · intro u call' r' hmem hnone
        rcases List.mem_cons.mp hmem with heq | hmem
        · cases heq
          exact hpost
        · exact hf.hashes u call' r' hmem hnone
    | some h =>
      obtain ⟨st, hdoes, hshows⟩ := hpost
      obtain ⟨hwrites, hno, hlt⟩ := hfine h rfl
      exact ⟨now, _, hf.finish_some hp hg hself.symm hwrites hno hlt hdoes hshows⟩

/-! ### Runs -/

theorem fits_initial (p : Platform) : (hasherLedger p).fits .initial (fun _ => none) [] := by
  refine ⟨fun _ => .blank, fun _ => none, ?_⟩
  exact
    { field := fun _ => rfl
      heap := fun a h => ⟨fun hc => absurd hc (by simp [KmpShared.initial, Native.initial]),
        fun ⟨i, hi⟩ => absurd hi (by simp [Belongings.blank])⟩
      distinct := fun i j a h h' hi => absurd hi (by simp [Belongings.blank])
      held := fun t h ht => absurd ht (by simp [Has])
      apart := fun t u h h' ht => absurd ht (by simp [Has])
      settled := fun i _ => rfl
      past := fun i => .nil
      begun := by
        rintro i (hne | ⟨t, h, ht, -⟩)
        · exact absurd rfl hne
        · exact absurd ht (by simp [Has])
      follows := fun i h hh => absurd hh (by simp)
      hashes := fun t call r hmem => absurd hmem List.not_mem_nil }

/-- **Streams under threads are isolated**, in every run in which no call on a stream overlaps
another one but for `finalize`: no hasher is used or freed that is not allocated, none by two
threads at once, none is lost, and each stream does what it does alone. -/
theorem isolated_of_reach {p : Platform} (hp : p.Agree) :
    ∀ cfg, Reach (kmpPool p) Exclusive freshKmpPool cfg → Isolated p cfg := by
  intro cfg h
  obtain ⟨has, hb⟩ := (hasherLedger_kept hp).reach (fits_initial p) h
  obtain ⟨now, base, hf⟩ := id hb.fits
  -- while no call is in progress nobody has anything
  have hquiet : cfg.Quiet → ∀ i, (now i).Shows (base i) := by
    intro hq i
    refine hf.settled i ?_
    intro t h' ht
    exact absurd ((hb.idle t (hq.rest t)).symm.trans ht) (by simp)
  have hhasher : ∀ i, (now i).Shows (base i) → ∀ a x, (now i).hasher = some (a, x) →
      base i = some (some x) ∧ cfg.shared.hasherPtr i = a ∧ a ≠ 0 := by
    intro i hshows a x hx
    cases hbase : base i with
    | none =>
      rw [hbase] at hshows
      rw [show now i = .blank from hshows] at hx
      exact absurd hx (by simp [Belongings.blank])
    | some st =>
      cases st with
      | none =>
        rw [hbase] at hshows
        rw [show now i = .blank from hshows] at hx
        exact absurd hx (by simp [Belongings.blank])
      | some y =>
        rw [hbase] at hshows
        obtain ⟨h0, hy⟩ := hshows
        rw [hy] at hx
        obtain ⟨rfl, rfl⟩ := Prod.mk.inj (Option.some.inj hx)
        exact ⟨rfl, hf.field i, h0⟩
  have hopen : ∀ i, cfg.Quiet → cfg.shared.hasherPtr i ≠ 0 →
      ∃ x, (now i).hasher = some (cfg.shared.hasherPtr i, x) := by
    intro i hq h0
    have hshows := hquiet hq i
    rw [hf.field] at h0 ⊢
    cases hbase : base i with
    | none =>
      rw [hbase] at hshows
      exact absurd (congrArg Belongings.hasherPtr hshows) h0
    | some st =>
      cases st with
      | none =>
        rw [hbase] at hshows
        exact absurd (congrArg Belongings.hasherPtr hshows) h0
      | some x =>
        rw [hbase] at hshows
        exact ⟨x, hshows.2⟩
  refine ⟨?_, ?_, ?_, ?_, ?_, ?_, ?_⟩
  · intro t call c next a hrest ha
    obtain ⟨g, hg, -, hreq, -⟩ := hb.running t call _ hrest
    obtain ⟨h', x, rfl, hx, -⟩ := holdContract_address hreq ha
    rw [hf.heap_own hg hx]
    simp
  · intro t u call call' c c' next next' a htu ht hu ha ha'
    exact balanced_apart hb htu ht hu ha ha'
  · intro hq a
    constructor
    · intro hne
      obtain ⟨x, hx⟩ := Option.ne_none_iff_exists'.mp hne
      obtain ⟨i, hi⟩ := (hf.heap a x).mp hx
      obtain ⟨hbase, hptr, -⟩ := hhasher i (hquiet hq i) a x hi
      obtain ⟨hmade, hclosed⟩ := (hf.past i).open_iff.mp ⟨x, hbase⟩
      exact ⟨i, returned_iff.mpr hmade, fun hc => hclosed (closed_iff.mp hc), hptr⟩
    · rintro ⟨i, hmade, hclosed, rfl⟩
      obtain ⟨x, hbase⟩ := (hf.past i).open_iff.mpr
        ⟨returned_iff.mp hmade, fun hc => hclosed (closed_iff.mpr hc)⟩
      have hshows := hquiet hq i
      rw [hbase] at hshows
      rw [hf.field, (hf.heap _ x).mpr ⟨i, hshows.2⟩]
      simp
  · intro hq i j h0 heq
    obtain ⟨x, hx⟩ := hopen i hq h0
    obtain ⟨y, hy⟩ := hopen j hq (heq ▸ h0)
    rw [← heq] at hy
    exact hf.distinct i j _ x y hx hy
  · intro i
    obtain ⟨trace, w, hrun, hsame, -, -⟩ := (hf.past i).run
    exact ⟨trace, w, hrun, hsame⟩
  · intro t data outLen r hmem
    exact hf.hashes t _ r hmem rfl
  · intro t key data outLen r hmem
    exact hf.hashes t _ r hmem rfl

/-- Thread 0 has constructed a stream at 4096, in a run in which nothing else is asked of the
steps. -/
theorem constructed_reach (p : Platform) {ok : KmpConfig → KmpMove → Prop}
    (hok : ∀ cfg m, (∀ t i op, m ≠ .start t (.call i op)) → ok cfg m) :
    ∃ cfg, Reach (kmpPool p) ok freshKmpPool cfg ∧ cfg.Quiet ∧ Returned cfg.history 0 ∧
      cfg.shared.hasherPtr 0 = 4096 := by
  have hmalloc : KmpShared.initial.Mallocs (some (4096, zeroedHasher)) := by
    intro a memory h
    cases h
    exact ⟨by decide, rfl⟩
  have hrun : Reach (kmpPool p) ok freshKmpPool _ :=
    Reach.refl.step (m := .start 0 (.new 0 none)) (hok _ _ (by simp))
      (.start rfl fun t key h => absurd h List.not_mem_nil)
  have hrun := hrun.perform (t := 0) (c := .loadNativeLibrary) rfl (.ok ()) _ (.inr rfl)
    (hok _ _ (by simp)) (hok _ _ (by simp))
  have hrun := hrun.perform (t := 0) (c := .createHasher) rfl (.ok (4096 : UInt64)) _
    (.inr (.inr ⟨_, hmalloc, rfl, rfl⟩)) (hok _ _ (by simp)) (hok _ _ (by simp))
  have hrun := hrun.perform (t := 0) (c := .setHasherPtr 0 4096) rfl (.ok ()) _
    (.inr ⟨rfl, rfl⟩) (hok _ _ (by simp)) (hok _ _ (by simp))
  have hrun := hrun.perform (t := 0) (c := .getHasherPtr 0) rfl (.ok (4096 : UInt64)) _
    (.inr ⟨rfl, rfl⟩) (hok _ _ (by simp)) (hok _ _ (by simp))
  have hrun := hrun.step (m := .finish 0 (.new 0 none) (.ok .unit)) (hok _ _ (by simp))
    (.returned rfl)
  refine ⟨_, hrun, ?_, ⟨0, none, .unit, List.mem_cons_self⟩, rfl⟩
  intro t
  by_cases ht : t = 0
  · subst ht
    rfl
  · simp [Config.log, Config.set, freshKmpPool, Config.initial]

theorem isolated_of_reach_new :
    ∃ cfg, Reach (kmpPool linuxPortable) Exclusive freshKmpPool cfg ∧ cfg.Quiet ∧
      Returned cfg.history 0 ∧ Isolated linuxPortable cfg := by
  have hok : ∀ cfg m, (∀ t i op, m ≠ .start t (.call i op)) → Exclusive cfg m := by
    intro cfg m hm
    cases m with
    | start t call =>
      cases call with
      | call i op => exact absurd rfl (hm t i op)
      | _ => trivial
    | _ => trivial
  obtain ⟨cfg, hreach, hq, hmade, -⟩ := constructed_reach linuxPortable hok
  exact ⟨cfg, hreach, hq, hmade, isolated_of_reach linuxPortable_agree cfg hreach⟩

/-- When two threads close one stream, each of them is about to free its hasher. -/
theorem freed_twice (p : Platform) : ∃ cfg call next next',
    Reach (kmpPool p) Anything freshKmpPool cfg ∧
    cfg.rest 0 = some (call, .perform (.freeHasher 4096) next) ∧
    cfg.rest 1 = some (call, .perform (.freeHasher 4096) next') := by
  have hok : ∀ (cfg : KmpConfig) (m : KmpMove), (∀ t i op, m ≠ .start t (.call i op)) →
      Anything cfg m := fun _ _ _ => trivial
  obtain ⟨cfg, hrun, hq, ⟨t, key, r, hmade⟩, hptr⟩ := constructed_reach p hok
  have hptr : (.ok 4096 : Except Throwable UInt64) = .ok (cfg.shared.hasherPtr 0) :=
    congrArg Except.ok hptr.symm
  have hfirst : (kmpPool p).mayStart cfg (.call 0 .close) := ⟨t, key, r, hmade⟩
  have hrun := hrun.step (m := .start 0 (.call 0 .close)) trivial (.start (hq 0) hfirst)
  have hsecond : (kmpPool p).mayStart ((cfg.set 0 (.running (.call 0 .close)
      ((kmpPool p).body (.call 0 .close)))).log (.started 0 (.call 0 .close))) (.call 0 .close) :=
    ⟨t, key, r, List.mem_cons_of_mem _ hmade⟩
  have hrun := hrun.step (m := .start 1 (.call 0 .close)) trivial (.start (hq 1) hsecond)
  -- both find the field set, and read it again
  have hrun := hrun.perform (t := 0) (c := .getHasherPtr 0) rfl (.ok (4096 : UInt64)) _
    (.inr ⟨hptr, rfl⟩) trivial trivial
  have hrun := hrun.perform (t := 1) (c := .getHasherPtr 0) rfl (.ok (4096 : UInt64)) _
    (.inr ⟨hptr, rfl⟩) trivial trivial
  have hrun := hrun.perform (t := 0) (c := .getHasherPtr 0) rfl (.ok (4096 : UInt64)) _
    (.inr ⟨hptr, rfl⟩) trivial trivial
  have hrun := hrun.perform (t := 1) (c := .getHasherPtr 0) rfl (.ok (4096 : UInt64)) _
    (.inr ⟨hptr, rfl⟩) trivial trivial
  exact ⟨_, .call 0 .close, _, _, hrun, rfl, rfl⟩

end Blake3Kmp
