import KeyStore.Proofs.Conversations
import KeyStore.Proofs.Verdicts

/-!
# Requests in two dialects

A request can be typed as the words of a line or sent as the items of a frame. The words of a line are the same
whatever white space is around and between them (`Incoming.read_of_types`), and the same request has the same effect in
both dialects and the same reply, each in its own spelling (`Connection.same_of_dialects`).
-/

namespace KeyStore

namespace Bytes

def IsWord (s : Bytes) : Prop := s ≠ [] ∧ ∀ b ∈ s, isSpace b = false

def IsBlank (s : Bytes) : Prop := ∀ b ∈ s, isSpace b = true ∧ b ≠ 10

instance (s : Bytes) : Decidable (IsWord s) := inferInstanceAs (Decidable (_ ∧ _))

instance (s : Bytes) : Decidable (IsBlank s) := inferInstanceAs (Decidable (∀ b ∈ s, _))

/-- The byte string is these words, with white space between them. -/
inductive Spaced : List Bytes → Bytes → Prop
  | none : Spaced [] []
  | one (word : Bytes) : Spaced [word] word
  | more (word : Bytes) {gap next rest : Bytes} {words : List Bytes} (hne : gap ≠ []) (hgap : IsBlank gap)
      (hrest : Spaced (next :: words) rest) : Spaced (word :: next :: words) (word ++ (gap ++ rest))

/-- The line types these words: there may be more white space around them, and it ends with a line feed, perhaps behind
a carriage return. -/
def Types (words : List Bytes) (line : Bytes) : Prop :=
  ∃ front body back ending, IsBlank front ∧ Spaced words body ∧ IsBlank back ∧ (ending = [10] ∨ ending = crlf) ∧
    line = front ++ body ++ back ++ ending

theorem wordsFrom_eq (s word : Bytes) (done : List Bytes) :
    wordsFrom s word done = done.reverse ++ wordsFrom s word [] := by
  induction s generalizing word done with
  | nil => cases word <;> simp [wordsFrom, pushWord]
  | cons b s ih =>
    simp only [wordsFrom]
    split
    · rw [ih, ih [] (pushWord word [])]
      cases word <;> simp [pushWord]
    · exact ih _ _

theorem wordsFrom_append {s : Bytes} (h : ∀ b ∈ s, isSpace b = false) (rest word : Bytes) (done : List Bytes) :
    wordsFrom (s ++ rest) word done = wordsFrom rest (s.reverse ++ word) done := by
  induction s generalizing word with
  | nil => rfl
  | cons b s ih =>
    obtain ⟨hb, hs⟩ := List.forall_mem_cons.1 h
    simp [wordsFrom, hb, ih hs]

theorem words_append_of_blank {gap : Bytes} (h : ∀ b ∈ gap, isSpace b = true) (s : Bytes) :
    words (gap ++ s) = words s := by
  induction gap with
  | nil => rfl
  | cons b gap ih =>
    obtain ⟨hb, hgap⟩ := List.forall_mem_cons.1 h
    rw [← ih hgap, words, List.cons_append, wordsFrom, if_pos hb]
    rfl

theorem words_concat {b : UInt8} (hb : isSpace b = true) (s : Bytes) : words (s ++ [b]) = words s := by
  have hend : ∀ word done, wordsFrom (s ++ [b]) word done = wordsFrom s word done := by
    induction s with
    | nil => simp [wordsFrom, hb, pushWord]
    | cons a s ih => simp [wordsFrom, ih]
  exact hend [] []

theorem words_chomp (line : Bytes) : words (chomp line) = words line := by
  unfold chomp
  split
  · next hlast =>
    obtain ⟨init, rfl⟩ := List.getLast?_eq_some_iff.1 hlast
    rw [List.dropLast_concat, words_concat rfl]
  · rfl

theorem words_append_of_word {word gap : Bytes} (hword : IsWord word) (hne : gap ≠ [])
    (hgap : ∀ b ∈ gap, isSpace b = true) (s : Bytes) : words (word ++ (gap ++ s)) = word :: words s := by
  obtain ⟨b, gap, rfl⟩ := List.exists_cons_of_ne_nil hne
  obtain ⟨hb, hgap⟩ := List.forall_mem_cons.1 hgap
  have hword' : word.reverse.isEmpty = false := by simp [hword.1]
  rw [words, wordsFrom_append hword.2, List.cons_append, wordsFrom, if_pos hb, wordsFrom_eq,
    ← words_append_of_blank hgap]
  simp [pushWord, hword', words]

theorem words_of_word {word : Bytes} (hword : IsWord word) : words word = [word] := by
  have hgap : ∀ b ∈ ([32] : Bytes), isSpace b = true := List.forall_mem_singleton.2 rfl
  rw [← words_concat (b := 32) rfl]
  exact words_append_of_word hword (by simp) hgap []

theorem words_of_spaced {ws : List Bytes} {body : Bytes} (h : Spaced ws body)
    (hwords : ∀ word ∈ ws, IsWord word) : words body = ws := by
  induction h with
  | none => rfl
  | one word => exact words_of_word (hwords word (by simp))
  | more word hne hgap hrest ih =>
    obtain ⟨hword, hwords⟩ := List.forall_mem_cons.1 hwords
    rw [words_append_of_word hword hne fun b hb => (hgap b hb).1, ih hwords]

theorem words_append_blank {gap : Bytes} (h : ∀ b ∈ gap, isSpace b = true) (s : Bytes) :
    words (s ++ gap) = words s := by
  induction gap generalizing s with
  | nil => rw [List.append_nil]
  | cons b gap ih =>
    obtain ⟨hb, hgap⟩ := List.forall_mem_cons.1 h
    rw [List.append_cons, ih hgap, words_concat hb]

theorem lineFrom_append {s : Bytes} (h : (10 : UInt8) ∉ s) (line rest : Bytes) :
    lineFrom line (s ++ 10 :: rest) = some (line.reverse ++ s, rest) := by
  induction s generalizing line with
  | nil => simp [lineFrom]
  | cons b s ih =>
    obtain ⟨hb, hs⟩ := List.ne_and_not_mem_of_not_mem_cons h
    rw [List.cons_append, lineFrom, if_neg (Ne.symm hb), ih hs]
    simp

theorem not_mem_of_isBlank {s : Bytes} (h : IsBlank s) : (10 : UInt8) ∉ s := fun hmem => (h 10 hmem).2 rfl

theorem not_mem_of_isBlank_of_isSpace {s : Bytes} (h : IsBlank s) {b : UInt8} (hb : isSpace b = false) : b ∉ s := by
  intro hmem
  have hspace := (h b hmem).1
  rw [hb] at hspace
  cases hspace

theorem not_mem_of_isWord {s : Bytes} (h : IsWord s) : (10 : UInt8) ∉ s := fun hmem => by
  have hspace := h.2 10 hmem
  cases hspace

theorem not_mem_of_spaced {ws : List Bytes} {body : Bytes} (h : Spaced ws body)
    (hwords : ∀ word ∈ ws, IsWord word) : (10 : UInt8) ∉ body := by
  induction h with
  | none => simp
  | one word => exact not_mem_of_isWord (hwords word (by simp))
  | more word hne hgap hrest ih =>
    obtain ⟨hword, hwords⟩ := List.forall_mem_cons.1 hwords
    simp [not_mem_of_isWord hword, not_mem_of_isBlank hgap, ih hwords]

theorem Types.exists_content {ws : List Bytes} {line : Bytes} (h : Types ws line)
    (hwords : ∀ word ∈ ws, IsWord word) :
    ∃ content, line = content ++ [10] ∧ (10 : UInt8) ∉ content ∧ words content = ws := by
  obtain ⟨front, body, back, ending, hfront, hbody, hback, hending, rfl⟩ := h
  have htyped : words (front ++ body ++ back) = ws := by
    rw [words_append_blank (fun b hb => (hback b hb).1), words_append_of_blank (fun b hb => (hfront b hb).1),
      words_of_spaced hbody hwords]
  have hfeed : (10 : UInt8) ∉ front ++ body ++ back := by
    simp [not_mem_of_isBlank hfront, not_mem_of_isBlank hback, not_mem_of_spaced hbody hwords]
  rcases hending with rfl | rfl
  · exact ⟨_, rfl, hfeed, htyped⟩
  · refine ⟨front ++ body ++ back ++ [13], by simp [crlf], by simpa using hfeed, ?_⟩
    rw [words_concat rfl, htyped]

theorem head?_append_ne {s t : Bytes} {b : UInt8} (hs : s.head? ≠ some b) (ht : t.head? ≠ some b) :
    (s ++ t).head? ≠ some b := by
  cases s with
  | nil => exact ht
  | cons a s => exact hs

theorem head?_ne_of_isBlank {s : Bytes} (h : IsBlank s) {b : UInt8} (hb : isSpace b = false) : s.head? ≠ some b :=
  fun hhead => not_mem_of_isBlank_of_isSpace h hb (List.mem_of_head? hhead)

theorem Types.head?_ne {ws : List Bytes} {line : Bytes} (h : Types ws line) {b : UInt8}
    (hb : isSpace b = false) (hwords : ∀ word ∈ ws, IsWord word)
    (hfirst : ∀ first ∈ ws.head?, first.head? ≠ some b) : line.head? ≠ some b := by
  obtain ⟨front, body, back, ending, hfront, hbody, hback, hending, rfl⟩ := h
  have hend : ending.head? ≠ some b := by
    rintro hhead
    rcases hending with rfl | rfl <;> cases hhead <;> cases hb
  have hbody : body.head? ≠ some b := by
    cases hbody with
    | none => simp
    | one => exact hfirst body rfl
    | more word =>
      rw [List.head?_append_of_ne_nil _ (List.forall_mem_cons.1 hwords).1.1]
      exact hfirst word rfl
  have hblank : ∀ s, IsBlank s → s.head? ≠ some b := fun s hs => head?_ne_of_isBlank hs hb
  exact head?_append_ne (head?_append_ne (head?_append_ne (hblank front hfront) hbody) (hblank back hback)) hend

end Bytes

namespace Incoming

/-- The words of a line are the request that is read of it, unless a frame may start there. -/
theorem read_of_types {words : List Bytes} {line : Bytes} (h : Bytes.Types words line)
    (hwords : ∀ word ∈ words, Bytes.IsWord word) (hfirst : ∀ first ∈ words.head?, first.head? ≠ some 42)
    (more : Bytes) : Incoming.read (line ++ more) = .request .line words more := by
  have hhead : line.head? ≠ some 42 := h.head?_ne rfl hwords hfirst
  obtain ⟨content, rfl, hfeed, hread⟩ := h.exists_content hwords
  have hhead' : (content ++ [10] ++ more).head? ≠ some 42 := by
    rwa [List.head?_append_of_ne_nil _ (by simp)]
  have hline : Bytes.line? (content ++ [10] ++ more) = some (content, more) := by
    rw [List.append_assoc]
    exact Bytes.lineFrom_append hfeed [] more
  simp only [Incoming.read, if_neg hhead', hline, Bytes.words_chomp, hread]

theorem read_of_spells {items : List Bytes} {frame : Bytes} (h : Frame.Spells items frame) (more : Bytes) :
    Incoming.read (frame ++ more) = .request .frame items more :=
  read_of_frame (Frame.parse_eq_done_iff.2 ⟨frame, (List.append_nil _).symm, rfl, h⟩) more

end Incoming

theorem Frame.spells_encode {items : List Bytes} (h : Sized items) : Spells items (encode items) := by
  have hparse := parse_encode h []
  rw [List.append_nil] at hparse
  obtain ⟨front, hfront, -, hspells⟩ := parse_eq_done_iff.1 hparse
  rwa [hfront, List.append_nil]

namespace Served

/-- Two services are the same, but that of the first the replies are written as lines, and of the second as frames. -/
structure SameIn (replies : List Reply) (s t : Served) : Prop where
  connection_eq : s.connection = t.connection
  notices_eq : s.notices = t.notices
  progress_eq : s.progress = t.progress
  out_lines : s.out = replies.flatMap fun reply => reply.toText ++ ("\n" : Bytes)
  out_frames : t.out = replies.flatMap Reply.toFrame

def thenServe (s : Served) (more : Bytes) : Served :=
  if s.progress = .closed then s else s.andThen (s.connection.serveAll more)

end Served

namespace Connection

open Served

variable {k : Connection} {request : Request} {s rest : Bytes} {dialect : Dialect}

def repliesTo (k : Connection) (request : Request) : List Reply :=
  if request.isEmpty then [] else [k.replyTo request]

theorem treat_eq (k : Connection) (dialect : Dialect) (request : Request) :
    k.treat dialect request =
      { k.treat .line request with out := (k.repliesTo request).flatMap fun reply => dialect.render reply } := by
  simp only [treat, repliesTo, replyTo, answer]
  split
  · rfl
  · split
    · simp [Dialect.goodbye]
    · split <;> simp

/-- A stream that is one request is served as the request, and then waited behind. -/
theorem serveAll_of_whole (h : Incoming.read s = .request dialect request []) :
    k.serveAll s =
      { (k.treat dialect request).withBuffer [] with
        progress := if (k.treat dialect request).progress = .handled then .waiting else .closed } := by
  cases hp : (k.treat dialect request).progress with
  | waiting => exact absurd hp (progress_treat_ne k dialect request)
  | handled =>
    rw [serveAll_of_handled h hp, serveAll_of_incomplete Incoming.read_nil, if_pos rfl]
    simp only [andThen, List.append_nil]
    rfl
  | closed =>
    rw [serveAll_of_closed h hp, if_neg (by simp), ← hp]
    rfl

theorem sameIn_serveAll {line frame : Bytes} (hline : Incoming.read line = .request .line request [])
    (hframe : Incoming.read frame = .request .frame request []) :
    SameIn (k.repliesTo request) (k.serveAll line) (k.serveAll frame) := by
  rw [serveAll_of_whole hline, serveAll_of_whole hframe, k.treat_eq .line, k.treat_eq .frame]
  exact ⟨rfl, rfl, rfl, rfl, rfl⟩

theorem serveAll_thenServe (h : (k.serveAll s).connection.buffer = []) (more : Bytes) :
    (k.serveAll (s ++ more)).effect = ((k.serveAll s).thenServe more).effect := by
  unfold thenServe
  cases hp : (k.serveAll s).progress with
  | waiting => rw [serveAll_append hp, h, List.nil_append, if_neg (by simp)]
  | handled => exact absurd hp (progress_serveAll_ne k s)
  | closed => rw [serveAll_append_of_closed hp, effect_withBuffer, if_pos rfl]

/-- A request and what follows it may arrive in any reads. -/
theorem effect_serve_of_whole (hbuffer : k.buffer = [])
    (hread : ∀ more, Incoming.read (s ++ more) = .request dialect request more) (hsize : s.length ≤ requestLimit)
    {more : Bytes} (hmore : Incoming.Fits requestLimit more) {reads : List Bytes} (hreads : reads.flatten = s ++ more) :
    (k.serve reads).effect = ((k.serveAll s).thenServe more).effect := by
  have hfits : Incoming.Fits requestLimit (k.buffer ++ reads.flatten) := by
    rw [hbuffer, hreads, List.nil_append]
    exact .next (hread more) (by rw [List.length_append]; omega) hmore
  have hwhole : Incoming.read s = .request dialect request [] := by simpa using hread []
  rw [effect_serve reads (by rw [hbuffer]; rfl) hfits, hbuffer, hreads, List.nil_append]
  refine serveAll_thenServe ?_ more
  rw [serveAll_of_whole hwhole]
  rfl

/-- Words that are typed in a line, and the same sent in a frame, are the same request. A connection that has nothing
to finish does the same of both and replies the same to both, each in its own spelling; what the client sends behind
it, in whatever reads all of it arrives, is served alike. -/
theorem same_of_dialects (hbuffer : k.buffer = []) {words : List Bytes} (hwords : ∀ word ∈ words, Bytes.IsWord word)
    (hfirst : ∀ first ∈ words.head?, first.head? ≠ some 42) {line frame : Bytes} (hline : Bytes.Types words line)
    (hframe : Frame.Spells words frame) (hlineSize : line.length ≤ requestLimit)
    (hframeSize : frame.length ≤ requestLimit) :
    SameIn (k.repliesTo words) (k.serveAll line) (k.serveAll frame) ∧
      ∀ more, Incoming.Fits requestLimit more →
        (∀ reads : List Bytes, reads.flatten = line ++ more →
          (k.serve reads).effect = ((k.serveAll line).thenServe more).effect) ∧
        ∀ reads : List Bytes, reads.flatten = frame ++ more →
          (k.serve reads).effect = ((k.serveAll frame).thenServe more).effect := by
  have hreadLine := Incoming.read_of_types hline hwords hfirst
  have hreadFrame := Incoming.read_of_spells hframe
  refine ⟨sameIn_serveAll (by simpa using hreadLine []) (by simpa using hreadFrame []), fun more hmore => ⟨?_, ?_⟩⟩
  · exact fun reads hreads => effect_serve_of_whole hbuffer hreadLine hlineSize hmore hreads
  · exact fun reads hreads => effect_serve_of_whole hbuffer hreadFrame hframeSize hmore hreads

/-- A key with a NUL byte in it, typed behind a tab, with several kinds of white space between the words, and sent in a
frame; then the client quits. -/
theorem same_of_dialects_of_spaces :
    let words : List Bytes := ["set", [107, 0], [255, 42]]
    let line : Bytes := ("\tset \x0b" : Bytes) ++ [107, 0, 12, 255, 42, 32, 13, 13, 10]
    (∀ word ∈ words, Bytes.IsWord word) ∧ Bytes.Types words line ∧ Frame.Spells words (Frame.encode words) ∧
      SameIn [.ok] (serveAll ⟨{}, .standing 1000, .start none, []⟩ line)
        (serveAll ⟨{}, .standing 1000, .start none, []⟩ (Frame.encode words)) ∧
      (serve ⟨{}, .standing 1000, .start none, []⟩ [line.take 5, line.drop 5 ++ "quit\n"]).effect =
        ((serveAll ⟨{}, .standing 1000, .start none, []⟩ line).thenServe "quit\n").effect := by
  intro words line
  have hwords : ∀ word ∈ words, Bytes.IsWord word := by decide +kernel
  have hbody : Bytes.Spaced words (("set" : Bytes) ++ ((" \x0b" : Bytes) ++ ([107, 0] ++ ([12] ++ [255, 42])))) :=
    .more _ (by decide +kernel) (by decide +kernel) (.more _ (by decide +kernel) (by decide +kernel) (.one _))
  have hline : Bytes.Types words line :=
    ⟨"\t", _, [32, 13], Bytes.crlf, by decide +kernel, hbody, by decide +kernel, .inr rfl, by decide +kernel⟩
  have hframe : Frame.Spells words (Frame.encode words) := Frame.spells_encode (by decide +kernel)
  have hfirst : ∀ first ∈ words.head?, first.head? ≠ some 42 := by decide +kernel
  obtain ⟨hsame, hserve⟩ := same_of_dialects (k := ⟨{}, .standing 1000, .start none, []⟩) rfl hwords hfirst hline
    hframe (by decide +kernel) (by decide +kernel)
  have hquit : Incoming.Fits requestLimit ("quit\n" : Bytes) := Incoming.fits_of_length_le (by decide +kernel)
  have hreplies : repliesTo ⟨{}, .standing 1000, .start none, []⟩ words = [.ok] := by decide +kernel
  rw [hreplies] at hsame
  exact ⟨hwords, hline, hframe, hsame, (hserve _ hquit).1 _ (by decide +kernel)⟩

end Connection
end KeyStore
