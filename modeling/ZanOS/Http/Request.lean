import ZanOS.Kernel.Strings

/-!
# The request text

`http_get` builds the request in the static `request_buf` of 256 bytes, by five copies of which all
but the first start at the terminator of what is there already. None of them knows the size of the
buffer. `exists_buildRequest` says that the copies put the intended text together when it fits with
its terminator.

What the text means to a server is read off its lines, cut at each CR LF. A host name without CR
and LF contributes to one line only, so the text has a request line, two headers and the empty line
that ends them (`splitCrlf_requestText`).
-/

namespace ZanOS

open Foundation

/-! ## Building the text -/

section Append

variable {k : ℕ}

/-- The idiom `strcpy(buf + strlen(buf), src)`. -/
def appendString (buf : Vector UInt8 k) (src : List UInt8) : Option (Vector UInt8 k) :=
  match strlen buf.toList with
  | none => none
  | some n => strcpy buf n src

/-- `strcpy` leaves what is in front of the destination, and terminates what it copies. -/
theorem exists_strcpy (buf : Vector UInt8 k) (off : ℕ) {src : List UInt8}
    (hsrc : (0 : UInt8) ∈ src) (h : off + (cstr src).length < k) :
    ∃ buf' r, strcpy buf off src = some buf' ∧
      buf'.toList = buf.toList.take off ++ cstr src ++ 0 :: r := by
  have hlen : (cstr src ++ [0]).length = (cstr src).length + 1 := by simp
  obtain ⟨buf', hstore, hlist⟩ := exists_storeAll buf
    (show off + (cstr src ++ [0]).length ≤ k by omega)
  refine ⟨buf', buf.toList.drop (off + (cstr src ++ [0]).length),
    by rw [strcpy_eq_storeAll hsrc, hstore], ?_⟩
  rw [hlist, splice, ← List.append_assoc, List.append_assoc _ [0], List.singleton_append]

theorem exists_appendString {buf : Vector UInt8 k} {src : List UInt8}
    (hbuf : (0 : UInt8) ∈ buf.toList) (hsrc : (0 : UInt8) ∈ src)
    (h : (cstr buf.toList ++ cstr src).length < k) :
    ∃ buf', appendString buf src = some buf' ∧ (0 : UInt8) ∈ buf'.toList ∧
      cstr buf'.toList = cstr buf.toList ++ cstr src := by
  rw [List.length_append] at h
  obtain ⟨buf', r, hcopy, hlist⟩ := exists_strcpy buf _ hsrc h
  obtain ⟨r', hr'⟩ := exists_cstr_append hbuf
  have htake : buf.toList.take (cstr buf.toList).length = cstr buf.toList :=
    (congrArg (List.take (cstr buf.toList).length) hr').trans List.take_left
  rw [htake] at hlist
  refine ⟨buf', ?_, ?_, ?_⟩
  · rw [appendString, strlen_eq hbuf]
    exact hcopy
  · rw [hlist]
    simp
  · rw [hlist, cstr_append_zero]
    rw [List.mem_append, not_or]
    exact ⟨zero_notMem_cstr _, zero_notMem_cstr _⟩

end Append

/-- The five copies of `http_get`. -/
def buildRequest (requestBuf : Vector UInt8 256) (hostname path : List UInt8) :
    Option (Vector UInt8 256) := do
  let requestBuf ← strcpy requestBuf 0 (literal "GET ")
  let requestBuf ← appendString requestBuf path
  let requestBuf ← appendString requestBuf (literal " HTTP/1.1\r\nHost: ")
  let requestBuf ← appendString requestBuf hostname
  appendString requestBuf (literal "\r\nConnection: close\r\n\r\n")

/-- The request for a path at a host. -/
def requestText (host path : List UInt8) : List UInt8 :=
  ascii "GET " ++ path ++ ascii " HTTP/1.1\r\nHost: " ++ host
    ++ ascii "\r\nConnection: close\r\n\r\n"

theorem length_requestText (host path : List UInt8) :
    (requestText host path).length = host.length + path.length + 44 := by
  have h₁ : (ascii "GET ").length = 4 := rfl
  have h₂ : (ascii " HTTP/1.1\r\nHost: ").length = 17 := rfl
  have h₃ : (ascii "\r\nConnection: close\r\n\r\n").length = 23 := rfl
  simp only [requestText, List.length_append, h₁, h₂, h₃]
  omega

/-- **The copies put the request together.** -/
theorem exists_buildRequest (requestBuf : Vector UInt8 256) {hostname path : List UInt8}
    (hhost : (0 : UInt8) ∈ hostname) (hpath : (0 : UInt8) ∈ path)
    (h : (requestText (cstr hostname) (cstr path)).length < 256) :
    ∃ requestBuf', buildRequest requestBuf hostname path = some requestBuf' ∧
      (0 : UInt8) ∈ requestBuf'.toList ∧
      cstr requestBuf'.toList = requestText (cstr hostname) (cstr path) := by
  have hget : cstr (literal "GET ") = ascii "GET " := by decide
  have hhttp : cstr (literal " HTTP/1.1\r\nHost: ") = ascii " HTTP/1.1\r\nHost: " := by decide
  have hclose : cstr (literal "\r\nConnection: close\r\n\r\n")
      = ascii "\r\nConnection: close\r\n\r\n" := by decide
  simp only [requestText, List.length_append] at h
  obtain ⟨b₁, r, h₁, hlist⟩ := exists_strcpy requestBuf 0 (zero_mem_literal "GET ")
    (by rw [hget]; omega)
  have hz₁ : (0 : UInt8) ∈ b₁.toList := by rw [hlist]; simp
  have hb₁ : cstr b₁.toList = ascii "GET " := by
    rw [hlist, List.take_zero, List.nil_append, cstr_append_zero (zero_notMem_cstr _), hget]
  obtain ⟨b₂, h₂, hz₂, hb₂⟩ := exists_appendString hz₁ hpath
    (by rw [hb₁, List.length_append]; omega)
  obtain ⟨b₃, h₃, hz₃, hb₃⟩ := exists_appendString hz₂ (zero_mem_literal " HTTP/1.1\r\nHost: ")
    (by rw [hb₂, hb₁, hhttp]; simp only [List.length_append]; omega)
  obtain ⟨b₄, h₄, hz₄, hb₄⟩ := exists_appendString hz₃ hhost
    (by rw [hb₃, hb₂, hb₁, hhttp]; simp only [List.length_append]; omega)
  obtain ⟨b₅, h₅, hz₅, hb₅⟩ := exists_appendString hz₄
    (zero_mem_literal "\r\nConnection: close\r\n\r\n")
    (by rw [hb₄, hb₃, hb₂, hb₁, hhttp, hclose]; simp only [List.length_append]; omega)
  refine ⟨b₅, ?_, hz₅, ?_⟩
  · simp only [buildRequest, h₁, h₂, h₃, h₄, h₅, Option.bind_eq_bind, Option.bind_some]
  · rw [hb₅, hb₄, hb₃, hb₂, hb₁, hhttp, hclose, requestText]

/-! ## The lines of the text -/

/-- Cut a text at each CR LF. -/
def splitCrlf : List UInt8 → List (List UInt8)
  | [] => [[]]
  | c :: text =>
      match c, text with
      | 13, 10 :: rest => [] :: splitCrlf rest
      | c, text =>
          match splitCrlf text with
          | [] => [[c]]
          | line :: lines => (c :: line) :: lines

theorem splitCrlf_cons {c : UInt8} (hc : c ≠ 13) {text line : List UInt8}
    {lines : List (List UInt8)} (h : splitCrlf text = line :: lines) :
    splitCrlf (c :: text) = (c :: line) :: lines := by
  rw [splitCrlf]
  · rw [h]
  · exact fun _ hc' _ ↦ hc hc'

theorem splitCrlf_append {line : List UInt8} (hline : (13 : UInt8) ∉ line) (rest : List UInt8) :
    splitCrlf (line ++ 13 :: 10 :: rest) = line :: splitCrlf rest := by
  induction line with
  | nil => rfl
  | cons c line ih =>
    rw [List.mem_cons, not_or] at hline
    exact splitCrlf_cons (Ne.symm hline.1) (ih hline.2)

/-- **One request line and two headers**, whatever the host name, as long as it has no CR. -/
theorem splitCrlf_requestText {host path : List UInt8} (hhost : (13 : UInt8) ∉ host)
    (hpath : (13 : UInt8) ∉ path) :
    splitCrlf (requestText host path)
      = [ascii "GET " ++ path ++ ascii " HTTP/1.1", ascii "Host: " ++ host,
          ascii "Connection: close", [], []] := by
  have htext : requestText host path
      = (ascii "GET " ++ path ++ ascii " HTTP/1.1") ++ 13 :: 10 :: ((ascii "Host: " ++ host)
          ++ 13 :: 10 :: (ascii "Connection: close" ++ 13 :: 10 :: ([] ++ 13 :: 10 :: []))) := by
    have h₁ : ascii " HTTP/1.1\r\nHost: " = ascii " HTTP/1.1" ++ 13 :: 10 :: ascii "Host: " := rfl
    have h₂ : ascii "\r\nConnection: close\r\n\r\n"
        = 13 :: 10 :: (ascii "Connection: close" ++ 13 :: 10 :: [13, 10]) := rfl
    rw [requestText, h₁, h₂]
    simp only [List.append_assoc, List.cons_append, List.nil_append]
  have hline : (13 : UInt8) ∉ ascii "GET " ++ path ++ ascii " HTTP/1.1" := by
    simp only [List.mem_append, not_or]
    exact ⟨⟨by decide, hpath⟩, by decide⟩
  have hheader : (13 : UInt8) ∉ ascii "Host: " ++ host := by
    rw [List.mem_append, not_or]
    exact ⟨by decide, hhost⟩
  rw [htext, splitCrlf_append hline, splitCrlf_append hheader,
    splitCrlf_append (by decide), splitCrlf_append (by decide)]
  rfl

end ZanOS
