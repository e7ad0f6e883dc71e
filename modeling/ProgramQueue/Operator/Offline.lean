import ProgramQueue.Outside

/-!
# Collaborators of the operator's tool

The tool knows the plugins of the wallets in its configuration and nothing else.
Whatever needs a wallet engine is unavailable.
-/

namespace ProgramQueue.Operator

/-- The refusal of something that needs a wallet engine. -/
def offline (what : String) : CollaboratorError :=
  .unavailable s!"{what} needs a wallet engine; aq runs offline"

/-- The answers of the tool, given the plugin of each known wallet and the time. -/
def answerOffline (pluginOf? : String → Option String) (now : Int64) :
    (query : Query) → query.Answer
  | .walletInfo walletId =>
      match pluginOf? walletId with
      | some pluginId => .ok ⟨walletId, pluginId⟩
      | none => .error (.walletNotFound walletId)
  | .balance _ _ => .error (offline "balance")
  | .receiveAddress _ _ => .error (offline "receive address")
  | .confirmations _ _ => .error (offline "transaction status")
  | .send _ _ _ _ => .error (offline "send")
  | .broadcast _ _ => .error (offline "broadcast")
  | .approveLoan _ => .error (offline "loan approval")
  | .approveSwap _ => .error (offline "swap")
  | .depositAddress _ => .error (offline "exchange deposit")
  | .placeBuy _ _ => .error (offline "exchange buy")
  | .rate _ => .error (offline "exchange rate")
  | .toast _ => .ok ()
  | .clock => now
  | .pause _ => ()

end ProgramQueue.Operator
