import KeyStore.Numeral

/-!
# Replies

What a command answers, and its two spellings: as lines of text for a client that types requests,
and as a frame for a client that sends frames. Arrays of byte strings have one encoding, which
requests and log records share.
-/

namespace KeyStore

inductive Reply where
  | status (text : Bytes)
  | integer (n : Int)
  | bulk (value : Bytes)
  | nil
  | array (items : List Bytes)
  | error (text : Bytes)
  deriving DecidableEq

namespace Frame

def bulk (s : Bytes) : Bytes := 36 :: (Numeral.ofNat s.length ++ Bytes.crlf ++ s ++ Bytes.crlf)

def encode (items : List Bytes) : Bytes :=
  42 :: (Numeral.ofNat items.length ++ Bytes.crlf ++ items.flatMap bulk)

theorem encode_nil : encode [] = ("*0" : Bytes) ++ Bytes.crlf := by decide

end Frame

namespace Reply

def ok : Reply := .status "OK"

def ofBool (b : Bool) : Reply := .integer (if b then 1 else 0)

def isError : Reply → Bool
  | .error _ => true
  | _ => false

def lines : List Bytes → Bytes
  | [] => []
  | item :: rest => item ++ rest.flatMap (10 :: ·)

def toText : Reply → Bytes
  | .status text => 43 :: text
  | .integer n => 58 :: Numeral.ofInt n
  | .bulk value => value
  | .nil => "(nil)"
  | .array [] => "(empty)"
  | .array items => lines items
  | .error text => "ERR " ++ text

def toFrame : Reply → Bytes
  | .status text => 43 :: (text ++ Bytes.crlf)
  | .integer n => 58 :: (Numeral.ofInt n ++ Bytes.crlf)
  | .bulk value => Frame.bulk value
  | .nil => "$-1" ++ Bytes.crlf
  | .array items => Frame.encode items
  | .error text => "-ERR " ++ text ++ Bytes.crlf

end Reply
end KeyStore
