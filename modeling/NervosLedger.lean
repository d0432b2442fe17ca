import NervosLedger.Molecule.Splitting
import NervosLedger.Blockchain
import NervosLedger.Consent
import NervosLedger.MessageDomain
import NervosLedger.MessageDisplay
import NervosLedger.WhatIsSigned
import NervosLedger.ExchangeSession
import NervosLedger.Molecule.Traced
import NervosLedger.SigningGate
import NervosLedger.Molecule.Scan
import NervosLedger.LooseArgs
import NervosLedger.Accounting
import NervosLedger.PathToString
import NervosLedger.OutputScreen
import NervosLedger.CompactSignature
import NervosLedger.Destinations
import NervosLedger.TransactionHash
import NervosLedger.Molecule.Resuming
import NervosLedger.FirstWitness
import NervosLedger.SighashMessage
import NervosLedger.MultisigMessage
import NervosLedger.SigningKey
import NervosLedger.ReferencedCells
